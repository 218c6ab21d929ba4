import Mathlib.Data.Nat.Digits.Defs
import Mathlib.Data.Nat.ModEq
import Mathlib.Tactic.Ring
import Mathlib.Data.Int.ModEq

/-!
# Little-endian words

Fixed-width integers as the bytes a little-endian machine stores: `leBytes w v`
is the low `w` bytes of `v`, `leNat` reads bytes back as an unsigned number and
`leInt` as a two's complement one. Arithmetic on unsigned words wraps:
`wordAdd` and `wordSub` are addition and subtraction modulo `2 ^ 64`.
-/

/-! ## Encoding and decoding -/

/-- The low `w` bytes of `v`, least significant first. -/
def leBytes : Nat → Nat → List UInt8
  | 0, _ => []
  | w + 1, v => UInt8.ofNat v :: leBytes w (v / 256)

/-- The unsigned number a list of bytes stands for. -/
def leNat : List UInt8 → Nat
  | [] => 0
  | b :: bs => b.toNat + 256 * leNat bs

/-- The two's complement reading of an unsigned number below `modulus`. -/
def toSigned (modulus v : Nat) : Int :=
  if 2 * v < modulus then v else (v : Int) - modulus

/-- The two's complement number a list of bytes stands for. -/
def leInt (bs : List UInt8) : Int :=
  toSigned (256 ^ bs.length) (leNat bs)

/-- The `w` bytes of a two's complement number. -/
def intBytes (w : Nat) (i : Int) : List UInt8 :=
  leBytes w (i % (256 ^ w : Nat)).toNat

@[simp] theorem length_leBytes (w v : Nat) : (leBytes w v).length = w := by
  induction w generalizing v with
  | zero => rfl
  | succ w ih => simp [leBytes, ih]

@[simp] theorem length_intBytes (w : Nat) (i : Int) : (intBytes w i).length = w := by
  simp [intBytes]

/-- Decoding inverts encoding up to the width of the word. -/
theorem leNat_leBytes (w v : Nat) : leNat (leBytes w v) = v % 256 ^ w := by
  induction w generalizing v with
  | zero => simp [leBytes, leNat, Nat.mod_one]
  | succ w ih =>
      rw [leBytes, leNat, ih, Nat.pow_succ', Nat.mod_mul]
      simp

theorem leNat_leBytes_of_lt {w v : Nat} (h : v < 256 ^ w) : leNat (leBytes w v) = v := by
  rw [leNat_leBytes, Nat.mod_eq_of_lt h]

/-- The bytes of a word are determined by the number. -/
theorem leNat_lt (bs : List UInt8) : leNat bs < 256 ^ bs.length := by
  induction bs with
  | nil => simp [leNat]
  | cons b bs ih =>
      have hb : b.toNat < 256 := b.toNat_lt
      rw [leNat, List.length_cons, Nat.pow_succ]
      omega

/-- Reading back the residue of a signed number in range gives the number. -/
theorem toSigned_emod {modulus : Nat} {i : Int} (hlo : -(modulus : Int) ≤ 2 * i)
    (hhi : 2 * i < modulus) : toSigned modulus (i % modulus).toNat = i := by
  unfold toSigned
  rcases lt_or_ge i 0 with hneg | hpos
  · have hmod : i % modulus = i + modulus := by
      rw [← Int.add_emod_right, Int.emod_eq_of_lt (by omega) (by omega)]
    have hnat : ((i % modulus).toNat : Int) = i + modulus := by omega
    rw [if_neg (by omega), hnat]
    omega
  · have hmod : i % modulus = i := Int.emod_eq_of_lt hpos (by omega)
    have hnat : ((i % modulus).toNat : Int) = i := by omega
    rw [if_pos (by omega), hnat]

/-- A signed word in range survives the round trip through its bytes. -/
theorem leInt_intBytes {w : Nat} {i : Int} (hlo : -((256 ^ w : Nat) : Int) ≤ 2 * i)
    (hhi : 2 * i < (256 ^ w : Nat)) : leInt (intBytes w i) = i := by
  have hpos : (0 : Int) < (256 ^ w : Nat) := by
    exact_mod_cast Nat.pow_pos (by decide)
  have hlt : (i % (256 ^ w : Nat)).toNat < 256 ^ w := by
    have := Int.emod_lt_of_pos i hpos
    omega
  rw [leInt, length_intBytes, intBytes, leNat_leBytes_of_lt hlt]
  exact toSigned_emod hlo hhi

/-- Encoding inverts decoding. -/
theorem leBytes_leNat (bs : List UInt8) : leBytes bs.length (leNat bs) = bs := by
  induction bs with
  | nil => rfl
  | cons b bs ih =>
      have hb : b.toNat < 256 := b.toNat_lt
      have hhead : UInt8.ofNat (b.toNat + 256 * leNat bs) = b := by
        apply UInt8.toNat_inj.mp
        rw [UInt8.toNat_ofNat']
        omega
      rw [leNat, List.length_cons, leBytes, hhead,
        show (b.toNat + 256 * leNat bs) / 256 = leNat bs by omega, ih]

/-- The bytes of the number that some bytes stand for. -/
theorem intBytes_leInt (bs : List UInt8) : intBytes bs.length (leInt bs) = bs := by
  have hlt := leNat_lt bs
  have hmod : leInt bs % (256 ^ bs.length : Nat) = (leNat bs : Int) := by
    unfold leInt toSigned
    split
    · exact Int.emod_eq_of_lt (by omega) (by exact_mod_cast hlt)
    · rw [Int.sub_emod_right]
      exact Int.emod_eq_of_lt (by omega) (by exact_mod_cast hlt)
  rw [intBytes, hmod, Int.toNat_natCast, leBytes_leNat]

/-! ## Unsigned arithmetic -/

/-- The number of values of an unsigned 64-bit word. -/
def wordSize : Nat := 2 ^ 64

/-- Unsigned addition. -/
def wordAdd (a b : Nat) : Nat := (a + b) % wordSize

/-- Unsigned subtraction. -/
def wordSub (a b : Nat) : Nat := (a + (wordSize - b % wordSize)) % wordSize

/-- The signed value of an unsigned word. -/
def wordToInt (a : Nat) : Int := toSigned wordSize a

theorem wordAdd_of_lt {a b : Nat} (h : a + b < wordSize) : wordAdd a b = a + b :=
  Nat.mod_eq_of_lt h

theorem wordSub_of_le {a b : Nat} (h : b ≤ a) (ha : a < wordSize) : wordSub a b = a - b := by
  unfold wordSub
  rw [Nat.mod_eq_of_lt (lt_of_le_of_lt h ha),
    show a + (wordSize - b) = a - b + wordSize by omega, Nat.add_mod_right]
  exact Nat.mod_eq_of_lt (by omega)

theorem wordToInt_of_lt {a : Nat} (h : 2 * a < wordSize) : wordToInt a = a :=
  if_pos h
