import TecnicoFS.Lib.Memory
import TecnicoFS.Lib.Words
import TecnicoFS.Lib.CString
import Mathlib.Data.List.GetD

/-!
# Part 2: the requests of the client (`client/tecnicofs_client_api.c`)

Every function of the client API fills a local array with `memcpy` and `memset`
and writes it to the server pipe. A request here is the list of those copies,
and the bytes sent are the array after them. The lemmas give the bytes in a
row: what the server has to read back.
-/

namespace TecnicoFS.Part2

/-! ## Constants (`common/common.h`, `client/tecnicofs_client_api.h`) -/

def tfsOpCodeMount : UInt8 := 1
def tfsOpCodeUnmount : UInt8 := 2
def tfsOpCodeOpen : UInt8 := 3
def tfsOpCodeClose : UInt8 := 4
def tfsOpCodeWrite : UInt8 := 5
def tfsOpCodeRead : UInt8 := 6
def tfsOpCodeShutdownAfterAllClosed : UInt8 := 7

/-- `MAX_REQUEST_SIZE`. -/
abbrev maxRequestSize : Nat := 2048

/-- `MAX_CLIENTS`. -/
abbrev maxClients : Nat := 64

/-- `BUFFER_SIZE`: the field that holds a path. -/
abbrev bufferSize : Nat := 40

/-- `sizeof(int)`. -/
abbrev sizeofInt : Nat := 4

/-- `sizeof(size_t)`. -/
abbrev sizeofSizeT : Nat := 8

abbrev mountSizeApi : Nat := 1 + bufferSize
abbrev unmountSizeApi : Nat := 1 + sizeofInt
abbrev openSizeApi : Nat := 1 + 2 * sizeofInt + bufferSize
abbrev closeSizeApi : Nat := 1 + 2 * sizeofInt
abbrev writeSizeApi (len : Nat) : Nat := 1 + 2 * sizeofInt + len + sizeofSizeT
abbrev readSizeApi : Nat := 1 + 2 * sizeofInt + sizeofSizeT
abbrev shutdownSizeApi : Nat := 1 + sizeofInt

/-! ## Requests -/

/-- The calls of the client API with their arguments. -/
inductive ApiCall where
  | mount (clientPipePath : CString)
  | unmount
  | open (name : CString) (flags : BitVec 32)
  | close (fhandle : Int)
  | write (fhandle : Int) (buffer : List UInt8)
  | read (fhandle : Int) (len : Nat)
  | shutdown
deriving DecidableEq

namespace ApiCall

def isMount : ApiCall → Bool
  | .mount _ => true
  | _ => false

/-- The size of the array `server_request`. -/
def requestSize : ApiCall → Nat
  | .mount _ => mountSizeApi
  | .unmount => unmountSizeApi
  | .open _ _ => openSizeApi
  | .close _ => closeSizeApi
  | .write _ buffer => writeSizeApi buffer.length
  | .read _ _ => readSizeApi
  | .shutdown => shutdownSizeApi

/-- The `memcpy` and `memset` calls that fill the array, in order: where to, and
which bytes. -/
def copies (sessionId : Int) : ApiCall → List (Nat × List UInt8)
  | .mount clientPipePath =>
      [(0, [tfsOpCodeMount]), (1, List.replicate bufferSize 0), (1, clientPipePath.bytes)]
  | .unmount => [(0, [tfsOpCodeUnmount]), (1, intBytes sizeofInt sessionId)]
  | .open name flags =>
      [(0, [tfsOpCodeOpen]), (1, intBytes sizeofInt sessionId),
        (1 + sizeofInt, leBytes sizeofInt flags.toNat),
        (1 + 2 * sizeofInt, List.replicate bufferSize 0), (1 + 2 * sizeofInt, name.bytes)]
  | .close fhandle =>
      [(0, [tfsOpCodeClose]), (1, intBytes sizeofInt sessionId),
        (1 + sizeofInt, intBytes sizeofInt fhandle)]
  | .write fhandle buffer =>
      [(0, [tfsOpCodeWrite]), (1, intBytes sizeofInt sessionId),
        (1 + sizeofInt, intBytes sizeofInt fhandle),
        (1 + 2 * sizeofInt, leBytes sizeofSizeT buffer.length),
        (1 + 2 * sizeofInt + sizeofSizeT, buffer)]
  | .read fhandle len =>
      [(0, [tfsOpCodeRead]), (1, intBytes sizeofInt sessionId),
        (1 + sizeofInt, intBytes sizeofInt fhandle), (1 + 2 * sizeofInt, leBytes sizeofSizeT len)]
  | .shutdown => [(0, [tfsOpCodeShutdownAfterAllClosed]), (1, intBytes sizeofInt sessionId)]

end ApiCall

/-- A local array after some copies. -/
def fillArray (copies : List (Nat × List UInt8)) : Memory UInt8 :=
  copies.foldl (fun array copy => Memory.store array copy.1 copy.2) fun _ => 0

/-- The bytes a client with this session id sends for a call. -/
def serverRequest (sessionId : Int) (call : ApiCall) : List UInt8 :=
  Memory.load (fillArray (call.copies sessionId)) 0 call.requestSize

/-! ## The bytes in a row -/

/-- Copies laid end to end, the first at an offset. -/
def laidOut : Nat → List (List UInt8) → List (Nat × List UInt8)
  | _, [] => []
  | offset, part :: parts => (offset, part) :: laidOut (offset + part.length) parts

theorem load_laidOut (parts : List (List UInt8)) :
    ∀ (m : Memory UInt8) (front : List UInt8), Memory.load m 0 front.length = front →
      Memory.load ((laidOut front.length parts).foldl
        (fun array copy => Memory.store array copy.1 copy.2) m) 0
        (front.length + parts.flatten.length) = front ++ parts.flatten := by
  induction parts with
  | nil =>
      intro m front hm
      simpa [laidOut] using hm
  | cons part parts ih =>
      intro m front hm
      have hstore : Memory.load (Memory.store m front.length part) 0 (front ++ part).length =
          front ++ part := by
        rw [List.length_append]
        conv => rhs; rw [← hm]
        rw [← Memory.load_store_append, Nat.zero_add]
      have hrest := ih (Memory.store m front.length part) (front ++ part) hstore
      simp only [laidOut, List.foldl_cons, List.flatten_cons]
      rw [List.length_append] at hrest
      rw [List.length_append, ← Nat.add_assoc, hrest, List.append_assoc]

theorem load_fillArray_laidOut (parts : List (List UInt8)) :
    Memory.load (fillArray (laidOut 0 parts)) 0 parts.flatten.length = parts.flatten := by
  have h := load_laidOut parts (fun _ => 0) [] rfl
  simpa [fillArray] using h

/-- A string in a field of `BUFFER_SIZE` bytes. -/
def padded (s : CString) : List UInt8 := s.bytes ++ List.replicate (bufferSize - s.strlen) 0

theorem length_padded {s : CString} (h : s.strlen ≤ bufferSize) :
    (padded s).length = bufferSize := by
  simp only [padded, List.length_append, List.length_replicate]
  simp only [CString.strlen] at *
  omega

/-- Clearing the field after a header and copying the string into it. -/
theorem load_fillArray_pad (parts : List (List UInt8)) {s : CString} {n : Nat}
    (hn : parts.flatten.length = n) (h : s.strlen ≤ bufferSize) :
    Memory.load (fillArray (laidOut 0 parts ++
      [(n, List.replicate bufferSize 0), (n, s.bytes)])) 0 (n + bufferSize) =
        parts.flatten ++ padded s := by
  subst hn
  have hclear : Memory.load (Memory.store (fillArray (laidOut 0 parts)) parts.flatten.length
      (List.replicate bufferSize 0)) 0 (parts.flatten.length + bufferSize) =
        parts.flatten ++ List.replicate bufferSize 0 := by
    conv => rhs; rw [← load_fillArray_laidOut]
    rw [← Memory.load_store_append, Nat.zero_add, List.length_replicate]
  have hinside : parts.flatten.length + s.bytes.length ≤ parts.flatten.length + bufferSize := by
    simp only [CString.strlen] at h
    omega
  have hstore := Memory.load_store_inside (a := 0) (m := Memory.store (fillArray (laidOut 0 parts))
    parts.flatten.length (List.replicate bufferSize 0)) hinside
  rw [Nat.zero_add, hclear, Memory.overwrite_append_left, List.drop_replicate] at hstore
  have hfill : fillArray (laidOut 0 parts ++ [(parts.flatten.length, List.replicate bufferSize 0),
      (parts.flatten.length, s.bytes)]) =
      Memory.store (Memory.store (fillArray (laidOut 0 parts)) parts.flatten.length
        (List.replicate bufferSize 0)) parts.flatten.length s.bytes := by
    simp only [fillArray, List.foldl_append, List.foldl_cons, List.foldl_nil]
  rw [hfill, hstore]
  rfl

variable {sessionId fhandle : Int}

theorem serverRequest_of_laidOut (sessionId : Int) (call : ApiCall) (parts : List (List UInt8))
    (hcopies : call.copies sessionId = laidOut 0 parts)
    (hsize : call.requestSize = parts.flatten.length) :
    serverRequest sessionId call = parts.flatten := by
  rw [serverRequest, hcopies, hsize, load_fillArray_laidOut]

theorem serverRequest_mount {path : CString} (h : path.strlen ≤ bufferSize) :
    serverRequest sessionId (.mount path) = tfsOpCodeMount :: padded path :=
  load_fillArray_pad [[tfsOpCodeMount]] rfl h

theorem serverRequest_unmount :
    serverRequest sessionId .unmount = tfsOpCodeUnmount :: intBytes sizeofInt sessionId := by
  have h := serverRequest_of_laidOut sessionId .unmount
    [[tfsOpCodeUnmount], intBytes sizeofInt sessionId] (by simp [ApiCall.copies, laidOut])
    (by simp [ApiCall.requestSize, Nat.add_comm])
  simpa using h

theorem serverRequest_open {name : CString} {flags : BitVec 32} (h : name.strlen ≤ bufferSize) :
    serverRequest sessionId (.open name flags) =
      tfsOpCodeOpen :: (intBytes sizeofInt sessionId ++
        (leBytes sizeofInt flags.toNat ++ padded name)) := by
  have hpad := load_fillArray_pad (n := 1 + 2 * sizeofInt)
    [[tfsOpCodeOpen], intBytes sizeofInt sessionId, leBytes sizeofInt flags.toNat]
    (by simp [sizeofInt]) h
  simpa [serverRequest, ApiCall.copies, ApiCall.requestSize, laidOut] using hpad

theorem serverRequest_close :
    serverRequest sessionId (.close fhandle) =
      tfsOpCodeClose :: (intBytes sizeofInt sessionId ++ intBytes sizeofInt fhandle) := by
  have h := serverRequest_of_laidOut sessionId (.close fhandle)
    [[tfsOpCodeClose], intBytes sizeofInt sessionId, intBytes sizeofInt fhandle]
    (by simp [ApiCall.copies, laidOut, sizeofInt])
    (by simp [ApiCall.requestSize, closeSizeApi, sizeofInt])
  simpa using h

theorem serverRequest_write {buffer : List UInt8} :
    serverRequest sessionId (.write fhandle buffer) =
      tfsOpCodeWrite :: (intBytes sizeofInt sessionId ++ (intBytes sizeofInt fhandle ++
        (leBytes sizeofSizeT buffer.length ++ buffer))) := by
  have h := serverRequest_of_laidOut sessionId (.write fhandle buffer)
    [[tfsOpCodeWrite], intBytes sizeofInt sessionId, intBytes sizeofInt fhandle,
      leBytes sizeofSizeT buffer.length, buffer]
    (by simp [ApiCall.copies, laidOut, sizeofInt, sizeofSizeT])
    (by simp [ApiCall.requestSize, writeSizeApi, sizeofInt, sizeofSizeT]; omega)
  simpa using h

theorem serverRequest_read {len : Nat} :
    serverRequest sessionId (.read fhandle len) =
      tfsOpCodeRead :: (intBytes sizeofInt sessionId ++ (intBytes sizeofInt fhandle ++
        leBytes sizeofSizeT len)) := by
  have h := serverRequest_of_laidOut sessionId (.read fhandle len)
    [[tfsOpCodeRead], intBytes sizeofInt sessionId, intBytes sizeofInt fhandle,
      leBytes sizeofSizeT len] (by simp [ApiCall.copies, laidOut, sizeofInt, sizeofSizeT])
    (by simp [ApiCall.requestSize, readSizeApi, sizeofInt, sizeofSizeT])
  simpa using h

theorem serverRequest_shutdown :
    serverRequest sessionId .shutdown =
      tfsOpCodeShutdownAfterAllClosed :: intBytes sizeofInt sessionId := by
  have h := serverRequest_of_laidOut sessionId .shutdown
    [[tfsOpCodeShutdownAfterAllClosed], intBytes sizeofInt sessionId]
    (by simp [ApiCall.copies, laidOut]) (by simp [ApiCall.requestSize, Nat.add_comm])
  simpa using h

end TecnicoFS.Part2
