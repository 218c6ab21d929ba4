import TecnicoFS.Lib.Memory
import TecnicoFS.Lib.Words

/-!
# Part 2: `read_buffer` (`fs/state.c`)

`read_buffer` reads on until it has as many bytes as were asked for, or until a `read` fails. A
`read` at the end of the file returns 0, which moves the loop no further: the bytes that are
missing never come, and the loop ends only if a later `read` fails.

`readBuffer` has its loop with the values of its variables. It is given the number of iterations
that it may take, so it runs for ever where no number is enough.
-/

namespace TecnicoFS.Part2.ReadBuffer

/-- What the calls of `read` come upon: the bytes up to the end of the file and, for each call,
whether it fails and how many bytes it delivers at most, which is at least one. -/
structure Reads where
  stream : List UInt8
  fails : Nat → Bool
  further : Nat → Nat

/-- The loop of `read_buffer`: how often it called `read`, `read_so_far`, the memory with the
buffer in it, and what is left of the stream. -/
structure State where
  calls : Nat
  readSoFar : Nat
  memory : Memory UInt8
  rest : List UInt8

/-- The call `read(rx, _, count)`: what it returns and the bytes that it takes from the stream. -/
def Reads.read (rd : Reads) (call count : Nat) (rest : List UInt8) : Int × List UInt8 :=
  if rd.fails call then (-1, [])
  else
    let bytes := rest.take (min count (rd.further call + 1))
    (bytes.length, bytes)

/-- `read_buffer` into memory from `buf` on: the returned value and the state at the end. -/
def readBuffer (rd : Reads) (buf toRead : Nat) : Nat → State → Option (Int × State)
  | 0, _ => none
  | fuel + 1, s =>
      if s.readSoFar < toRead then
        let (ret, bytes) := rd.read s.calls (toRead - s.readSoFar) s.rest
        let memory := s.memory.store (buf + s.readSoFar) bytes
        if ret = -1 then some (-1, { s with calls := s.calls + 1, memory := memory })
        else
          readBuffer rd buf toRead fuel
            { calls := s.calls + 1
              readSoFar := wordAdd s.readSoFar (ret % wordSize).toNat
              memory := memory
              rest := s.rest.drop bytes.length }
      else some (0, s)

/-- The state when `read_buffer` is called. -/
def Reads.start (rd : Reads) (memory : Memory UInt8) : State := ⟨0, 0, memory, rd.stream⟩

/-! ## What is asked of `read_buffer` -/

/-- How many bytes the first calls deliver as long as none of them fails. -/
def Reads.arrived (rd : Reads) (toRead : Nat) : Nat → Nat
  | 0 => 0
  | call + 1 =>
      rd.arrived toRead call + min (min (toRead - rd.arrived toRead call) (rd.further call + 1))
        (rd.stream.length - rd.arrived toRead call)

/-- An error or the end of the stream comes before the last byte. -/
def Reads.CutOff (rd : Reads) (toRead : Nat) : Prop :=
  rd.stream.length < toRead ∨
    ∃ call, rd.fails call = true ∧ rd.arrived toRead call < toRead

/-- The buffer holds the next bytes of the stream, and nothing behind them is gone; the rest of
the memory is as before. -/
structure Filled (rd : Reads) (memory : Memory UInt8) (buf toRead : Nat) (s : State) : Prop where
  buffer : s.memory.load buf toRead = rd.stream.take toRead
  enough : toRead ≤ rd.stream.length
  rest : s.rest = rd.stream.drop toRead
  frame : ∀ x, x < buf ∨ buf + toRead ≤ x → s.memory x = memory x

/-- `read_buffer` comes to an end: with 0 where it has exactly the bytes that were asked for, and
with -1 where an error or the end of the stream comes first. -/
def Exact (rd : Reads) (memory : Memory UInt8) (buf toRead : Nat) : Prop :=
  ∃ fuel r s, readBuffer rd buf toRead fuel (rd.start memory) = some (r, s) ∧
    (r = 0 ∧ ¬ rd.CutOff toRead ∧ Filled rd memory buf toRead s ∨ r = -1 ∧ rd.CutOff toRead)

variable {rd : Reads} {memory : Memory UInt8} {buf toRead fuel : Nat} {s s' : State} {r : Int}

/-! ## One call -/

theorem read_of_fails {call count : Nat} {rest : List UInt8} (h : rd.fails call = true) :
    rd.read call count rest = (-1, []) := if_pos h

theorem readBuffer_done (hdone : toRead ≤ s.readSoFar) :
    readBuffer rd buf toRead (fuel + 1) s = some (0, s) :=
  if_neg (not_lt.mpr hdone)

theorem readBuffer_fails (hlt : s.readSoFar < toRead) (hfails : rd.fails s.calls = true) :
    readBuffer rd buf toRead (fuel + 1) s = some (-1, { s with calls := s.calls + 1 }) := by
  rw [readBuffer, if_pos hlt, read_of_fails hfails]
  simp

/-- The bytes that the next call delivers. -/
def Reads.piece (rd : Reads) (toRead : Nat) (s : State) : List UInt8 :=
  s.rest.take (min (toRead - s.readSoFar) (rd.further s.calls + 1))

/-- The state after a call that delivers some bytes. -/
def State.take (s : State) (buf : Nat) (bytes : List UInt8) : State where
  calls := s.calls + 1
  readSoFar := s.readSoFar + bytes.length
  memory := s.memory.store (buf + s.readSoFar) bytes
  rest := s.rest.drop bytes.length

theorem read_piece (h : rd.fails s.calls = false) :
    rd.read s.calls (toRead - s.readSoFar) s.rest =
      (((rd.piece toRead s).length : Int), rd.piece toRead s) :=
  if_neg (by rw [h]; simp)

theorem piece_length : (rd.piece toRead s).length =
    min (min (toRead - s.readSoFar) (rd.further s.calls + 1)) s.rest.length :=
  List.length_take

theorem readBuffer_next (hword : toRead < wordSize) (hlt : s.readSoFar < toRead)
    (hfails : rd.fails s.calls = false) : readBuffer rd buf toRead (fuel + 1) s =
      readBuffer rd buf toRead fuel (s.take buf (rd.piece toRead s)) := by
  have hlen := @piece_length rd toRead s
  have hret : (((rd.piece toRead s).length : Int) % wordSize).toNat =
      (rd.piece toRead s).length := by
    have hlt' : ((rd.piece toRead s).length : Int) < wordSize := by
      exact_mod_cast (show (rd.piece toRead s).length < wordSize by omega)
    rw [Int.emod_eq_of_lt (Int.natCast_nonneg _) hlt', Int.toNat_natCast]
  have hnext : wordAdd s.readSoFar (rd.piece toRead s).length =
      s.readSoFar + (rd.piece toRead s).length := wordAdd_of_lt (by omega)
  rw [readBuffer, if_pos hlt, read_piece hfails]
  simp only []
  rw [if_neg (by omega), hret, hnext]
  rfl

/-! ## The loop -/

/-- What holds whenever the condition of the loop is tested. -/
structure Reached (rd : Reads) (memory : Memory UInt8) (buf toRead : Nat) (s : State) : Prop where
  arrived : s.readSoFar = rd.arrived toRead s.calls
  passed : ∀ call, call < s.calls → rd.fails call = false
  le : s.readSoFar ≤ toRead
  inside : s.readSoFar ≤ rd.stream.length
  buffer : s.memory.load buf s.readSoFar = rd.stream.take s.readSoFar
  rest : s.rest = rd.stream.drop s.readSoFar
  frame : ∀ x, x < buf ∨ buf + s.readSoFar ≤ x → s.memory x = memory x

theorem reached_start : Reached rd memory buf toRead (rd.start memory) where
  arrived := rfl
  passed _ hcall := absurd hcall (Nat.not_lt_zero _)
  le := Nat.zero_le _
  inside := Nat.zero_le _
  buffer := rfl
  rest := rfl
  frame _ _ := rfl

theorem Reached.rest_length (h : Reached rd memory buf toRead s) :
    s.rest.length = rd.stream.length - s.readSoFar := by
  rw [h.rest, List.length_drop]

theorem Reached.take (h : Reached rd memory buf toRead s) (hfails : rd.fails s.calls = false) :
    Reached rd memory buf toRead (s.take buf (rd.piece toRead s)) := by
  have hle := h.le
  have hinside := h.inside
  have hlen := @piece_length rd toRead s
  rw [h.rest_length] at hlen
  have hpiece : rd.piece toRead s =
      (rd.stream.drop s.readSoFar).take (rd.piece toRead s).length := by
    rw [← h.rest]
    exact List.prefix_iff_eq_take.mp (List.take_prefix _ s.rest)
  constructor
  · change s.readSoFar + (rd.piece toRead s).length = rd.arrived toRead (s.calls + 1)
    rw [hlen, Reads.arrived, ← h.arrived]
  · intro call hcall
    change call < s.calls + 1 at hcall
    rcases Nat.lt_succ_iff_lt_or_eq.mp hcall with hlt | rfl
    · exact h.passed call hlt
    · exact hfails
  · change s.readSoFar + _ ≤ toRead
    omega
  · change s.readSoFar + _ ≤ rd.stream.length
    omega
  · change (s.memory.store (buf + s.readSoFar) (rd.piece toRead s)).load buf
      (s.readSoFar + (rd.piece toRead s).length) =
        rd.stream.take (s.readSoFar + (rd.piece toRead s).length)
    rw [Memory.load_store_append, h.buffer, List.take_add, ← hpiece]
  · change s.rest.drop _ = rd.stream.drop (s.readSoFar + (rd.piece toRead s).length)
    rw [h.rest, List.drop_drop]
  · intro x hx
    change x < buf ∨ buf + (s.readSoFar + (rd.piece toRead s).length) ≤ x at hx
    change s.memory.store (buf + s.readSoFar) (rd.piece toRead s) x = memory x
    rcases hx with hx | hx
    · rw [Memory.store_of_lt (by omega), h.frame x (Or.inl hx)]
    · rw [Memory.store_of_ge (by omega), h.frame x (Or.inr (by omega))]

theorem arrived_le_succ (call : Nat) : rd.arrived toRead call ≤ rd.arrived toRead (call + 1) := by
  rw [Reads.arrived]
  omega

theorem arrived_mono {call call' : Nat} (h : call ≤ call') :
    rd.arrived toRead call ≤ rd.arrived toRead call' :=
  monotone_nat_of_le_succ arrived_le_succ h

/-- At the end all bytes are there. -/
theorem Reached.filled (h : Reached rd memory buf toRead s) (hdone : toRead ≤ s.readSoFar) :
    ¬ rd.CutOff toRead ∧ Filled rd memory buf toRead s := by
  have heq : s.readSoFar = toRead := Nat.le_antisymm h.le hdone
  have hinside := h.inside
  have harrived := h.arrived
  have hbuffer := h.buffer
  have hrest := h.rest
  have hframe := h.frame
  rw [heq] at hinside harrived hbuffer hrest hframe
  refine ⟨?_, hbuffer, hinside, hrest, hframe⟩
  rintro (hshort | ⟨call, hfails, hfirst⟩)
  · omega
  · have hle : s.calls ≤ call := by
      by_contra hlt
      rw [h.passed call (by omega)] at hfails
      cases hfails
    have hmono : rd.arrived toRead s.calls ≤ rd.arrived toRead call := arrived_mono hle
    omega

/-- A value that `read_buffer` returns is right. -/
theorem Reached.returns (hword : toRead < wordSize) (h : Reached rd memory buf toRead s)
    (hrun : readBuffer rd buf toRead fuel s = some (r, s')) :
    r = 0 ∧ ¬ rd.CutOff toRead ∧ Filled rd memory buf toRead s' ∨ r = -1 ∧ rd.CutOff toRead := by
  induction fuel generalizing s with
  | zero => cases hrun
  | succ fuel ih =>
      by_cases hlt : s.readSoFar < toRead
      · cases hfails : rd.fails s.calls with
        | true =>
            rw [readBuffer_fails hlt hfails] at hrun
            cases hrun
            exact Or.inr ⟨rfl, Or.inr ⟨s.calls, hfails, h.arrived ▸ hlt⟩⟩
        | false =>
            rw [readBuffer_next hword hlt hfails] at hrun
            exact ih (h.take hfails) hrun
      · rw [readBuffer_done (not_lt.mp hlt)] at hrun
        cases hrun
        exact Or.inl ⟨rfl, h.filled (not_lt.mp hlt)⟩

/-! ## Termination -/

/-- While bytes are left, each call that does not fail brings at least one. -/
theorem Reached.ends_of_enough (hword : toRead < wordSize) (henough : toRead ≤ rd.stream.length)
    (h : Reached rd memory buf toRead s) (hfuel : toRead - s.readSoFar < fuel) :
    ∃ r s', readBuffer rd buf toRead fuel s = some (r, s') := by
  induction fuel generalizing s with
  | zero => omega
  | succ fuel ih =>
      by_cases hlt : s.readSoFar < toRead
      · cases hfails : rd.fails s.calls with
        | true => exact ⟨_, _, readBuffer_fails hlt hfails⟩
        | false =>
            rw [readBuffer_next hword hlt hfails]
            refine ih (h.take hfails) ?_
            have hlen := @piece_length rd toRead s
            rw [h.rest_length] at hlen
            change toRead - (s.readSoFar + (rd.piece toRead s).length) < fuel
            omega
      · exact ⟨_, _, readBuffer_done (not_lt.mp hlt)⟩

/-- A call that fails ends the loop. -/
theorem Reached.ends_of_fails (hword : toRead < wordSize) {call : Nat}
    (hcall : rd.fails call = true) (h : Reached rd memory buf toRead s) (hle : s.calls ≤ call)
    (hfuel : call - s.calls < fuel) :
    ∃ r s', readBuffer rd buf toRead fuel s = some (r, s') := by
  induction fuel generalizing s with
  | zero => omega
  | succ fuel ih =>
      by_cases hlt : s.readSoFar < toRead
      · cases hfails : rd.fails s.calls with
        | true => exact ⟨_, _, readBuffer_fails hlt hfails⟩
        | false =>
            have hne : s.calls ≠ call := by
              rintro rfl
              rw [hfails] at hcall
              cases hcall
            rw [readBuffer_next hword hlt hfails]
            refine ih (h.take hfails) ?_ ?_
            · change s.calls + 1 ≤ call
              omega
            · change call - (s.calls + 1) < fuel
              omega
      · exact ⟨_, _, readBuffer_done (not_lt.mp hlt)⟩

/-- Where the stream is too short and no call fails, the loop runs for ever. -/
theorem Reached.runs_forever (hword : toRead < wordSize) (hshort : rd.stream.length < toRead)
    (hfails : ∀ call, rd.fails call = false) (h : Reached rd memory buf toRead s) :
    readBuffer rd buf toRead fuel s = none := by
  induction fuel generalizing s with
  | zero => rfl
  | succ fuel ih =>
      have hinside := h.inside
      rw [readBuffer_next hword (by omega) (hfails s.calls)]
      exact ih (h.take (hfails s.calls))

/-- For every stream and every sequence of results of `read`: `read_buffer` terminates, with 0
where it has exactly the next bytes and with -1 where an error or the end of the stream comes
first, if and only if the stream is long enough or some call of `read` fails. -/
theorem read_buffer_exact_iff (rd : Reads) (memory : Memory UInt8) (buf : Nat)
    (hword : toRead < wordSize) : Exact rd memory buf toRead ↔
      toRead ≤ rd.stream.length ∨ ∃ call, rd.fails call = true := by
  have hstart : Reached rd memory buf toRead (rd.start memory) := reached_start
  constructor
  · rintro ⟨fuel, r, s, hrun, -⟩
    by_contra hnot
    rw [not_or, not_le] at hnot
    have hfails : ∀ call, rd.fails call = false := by
      intro call
      rw [← Bool.not_eq_true]
      exact fun htrue => hnot.2 ⟨call, htrue⟩
    rw [hstart.runs_forever hword hnot.1 hfails] at hrun
    cases hrun
  · intro hends
    have hrun : ∃ fuel r s, readBuffer rd buf toRead fuel (rd.start memory) = some (r, s) := by
      rcases hends with henough | ⟨call, hcall⟩
      · exact ⟨toRead + 1, hstart.ends_of_enough hword henough (Nat.lt_succ_of_le (Nat.sub_le _ _))⟩
      · exact ⟨call + 1, hstart.ends_of_fails hword hcall (Nat.zero_le _)
          (Nat.lt_succ_of_le (Nat.sub_le _ _))⟩
    rcases hrun with ⟨fuel, r, s, hrun⟩
    exact ⟨fuel, r, s, hrun, hstart.returns hword hrun⟩

/-- The five bytes of a message that arrive in pieces of two, and one byte more. -/
theorem read_buffer_exact_five :
    Exact ⟨[1, 2, 3, 4, 5, 6], fun _ => false, fun _ => 1⟩ (fun _ => 0) 10 5 ↔
      5 ≤ [1, 2, 3, 4, 5, 6].length ∨ ∃ _ : Nat, false = true :=
  read_buffer_exact_iff ⟨[1, 2, 3, 4, 5, 6], fun _ => false, fun _ => 1⟩ (fun _ => 0) 10
    (by decide)

/-- A client that dies after two of the five bytes of its message. -/
theorem cut_off_runs_forever : ¬ Exact ⟨[1, 2], fun _ => false, fun _ => 0⟩ (fun _ => 0) 10 5 := by
  rintro ⟨fuel, r, s, hrun, -⟩
  have hstart : Reached ⟨[1, 2], fun _ => false, fun _ => 0⟩ (fun _ => 0) 10 5
      (Reads.start ⟨[1, 2], fun _ => false, fun _ => 0⟩ fun _ => 0) := reached_start
  rw [hstart.runs_forever (by decide) (by decide) fun _ => rfl] at hrun
  cases hrun

end TecnicoFS.Part2.ReadBuffer
