import Mathlib

/-!
# Integers as bytes

A fixed number of bytes with the lowest one first, the integers that they stand for without and
with a sign, and reading them one after the other into a word.
-/

namespace MultiPython.Logic

open List

/-- The lowest bytes of a number, the lowest one first. -/
def leBytes : Nat → Nat → List Nat
  | 0, _ => []
  | count + 1, value => value % 256 :: leBytes count (value / 256)

theorem leBytes_none (value : Nat) : leBytes 0 value = [] := rfl

theorem leBytes_succ (count value : Nat) :
    leBytes (count + 1) value = value % 256 :: leBytes count (value / 256) := rfl

/-- A power of 256 among the integers. -/
theorem pow_256_cast (count : Nat) : (256 ^ count : Int) = (256 ^ count : Nat) := by
  push_cast
  rfl

@[simp] theorem length_leBytes (count value : Nat) : (leBytes count value).length = count := by
  induction count generalizing value with
  | zero => rfl
  | succ count ih => rw [leBytes_succ, length_cons, ih]

variable {count value : Nat}

theorem leBytes_lt : ∀ byte ∈ leBytes count value, byte < 256 := by
  induction count generalizing value with
  | zero => simp [leBytes_none]
  | succ count ih =>
    intro byte member
    rcases mem_cons.mp member with rfl | later
    · exact Nat.mod_lt _ (by omega)
    · exact ih byte later

theorem ofDigits_leBytes (count value : Nat) :
    Nat.ofDigits 256 (leBytes count value) = value % 256 ^ count := by
  induction count generalizing value with
  | zero => simp [leBytes_none, Nat.mod_one]
  | succ count ih =>
    rw [leBytes_succ, Nat.ofDigits_cons, ih, Nat.pow_succ', Nat.mod_mul]

variable {bytes : List Nat}

/-- Bytes are determined by the number that they stand for. -/
theorem leBytes_ofDigits (small : ∀ byte ∈ bytes, byte < 256) :
    leBytes bytes.length (Nat.ofDigits 256 bytes) = bytes := by
  induction bytes with
  | nil => rfl
  | cons byte bytes ih =>
    rw [forall_mem_cons] at small
    rw [length_cons, leBytes_succ, Nat.ofDigits_cons, Nat.add_mul_mod_self_left,
      Nat.mod_eq_of_lt small.1, Nat.add_mul_div_left _ _ (by omega), Nat.div_eq_of_lt small.1,
      Nat.zero_add, ih small.2]

theorem leBytes_mod (count value : Nat) :
    leBytes count (value % 256 ^ count) = leBytes count value := by
  induction count generalizing value with
  | zero => rfl
  | succ count ih =>
    rw [leBytes_succ, leBytes_succ, Nat.pow_succ']
    have low : value % (256 * 256 ^ count) % 256 = value % 256 := Nat.mod_mul_right_mod _ _ _
    have high : value % (256 * 256 ^ count) / 256 = value / 256 % 256 ^ count :=
      Nat.mod_mul_right_div_self _ _ _
    rw [low, high, ih]

/-- The lowest bytes of more bytes. -/
theorem leBytes_add (count more value : Nat) :
    leBytes (count + more) value = leBytes count value ++ leBytes more (value / 256 ^ count) := by
  induction count generalizing value with
  | zero => simp [leBytes_none]
  | succ count ih =>
    rw [Nat.succ_add, leBytes_succ, leBytes_succ, ih, cons_append,
      Nat.div_div_eq_div_mul, Nat.pow_succ']

theorem leBytes_zero (count : Nat) : leBytes count 0 = List.replicate count 0 := by
  induction count with
  | zero => rfl
  | succ count ih =>
    rw [leBytes_succ, Nat.zero_mod, Nat.zero_div, ih, replicate_succ]

theorem leBytes_max (count : Nat) : leBytes count (256 ^ count - 1) = List.replicate count 255 := by
  induction count with
  | zero => rfl
  | succ count ih =>
    have positive : 0 < 256 ^ count := Nat.pow_pos (by omega)
    rw [leBytes_succ, Nat.pow_succ, (by omega : (256 ^ count * 256 - 1) % 256 = 255),
      (by omega : (256 ^ count * 256 - 1) / 256 = 256 ^ count - 1), ih,
      replicate_succ]

theorem take_leBytes (length count value : Nat) :
    (leBytes count value).take length = leBytes (min length count) value := by
  induction count generalizing length value with
  | zero => rw [leBytes_none, take_nil, Nat.min_zero, leBytes_none]
  | succ count ih =>
    cases length with
    | zero => rw [take_zero, Nat.zero_min, leBytes_none]
    | succ length =>
      rw [leBytes_succ, take_succ_cons, ih, Nat.succ_min_succ, leBytes_succ]

/-- Zeros after all the bytes of a number. -/
theorem leBytes_append_zeros (small : value < 256 ^ count) (more : Nat) :
    leBytes count value ++ List.replicate more 0 = leBytes (count + more) value := by
  rw [leBytes_add, Nat.div_eq_of_lt small, leBytes_zero]

/-- The lowest bytes of a number, with zeros after all of its bytes. -/
theorem take_leBytes_append_zeros (small : value < 256 ^ count) (length : Nat) :
    (leBytes count value).take length ++ List.replicate (length - min length count) 0 =
      leBytes length value := by
  rw [take_leBytes]
  rcases Nat.le_total length count with short | long
  · rw [Nat.min_eq_left short, Nat.sub_self, replicate_zero, append_nil]
  · rw [Nat.min_eq_right long, leBytes_append_zeros small, Nat.add_sub_cancel' long]

/-- The bytes of an integer in two's complement. -/
def twosBytes (count : Nat) (value : Int) : List Nat := leBytes count (value % 256 ^ count).toNat

/-- The integer that bytes in two's complement stand for. -/
def twosValue (bytes : List Nat) : Int :=
  if 256 ^ bytes.length ≤ 2 * Nat.ofDigits 256 bytes then
    ((Nat.ofDigits 256 bytes : Nat) : Int) - (256 ^ bytes.length : Nat)
  else ((Nat.ofDigits 256 bytes : Nat) : Int)

variable {count : Nat} {value : Int}

theorem twosBytes_of_nonneg (nonnegative : 0 ≤ value) :
    twosBytes count value = leBytes count value.toNat := by
  rw [twosBytes, ← leBytes_mod count value.toNat, Int.toNat_emod nonnegative (by positivity)]
  congr 2

/-- The bytes of a number taken from a power of the base. -/
theorem twosBytes_neg {count more value : Nat} (small : value ≤ 256 ^ (count + more)) :
    twosBytes count (-value) = leBytes count (256 ^ (count + more) - value) := by
  have cast := pow_256_cast count
  have divides : ((256 ^ count : Nat) : Int) ∣ (256 ^ (count + more) : Nat) :=
    Int.natCast_dvd_natCast.mpr (Nat.pow_dvd_pow 256 (Nat.le_add_right _ _))
  have residue : -(value : Int) % (256 ^ count : Nat) =
      ((256 ^ (count + more) - value : Nat) : Int) % (256 ^ count : Nat) := by
    obtain ⟨factor, multiple⟩ := divides
    rw [Int.natCast_sub small, multiple, Int.sub_eq_add_neg, Int.add_comm,
      Int.add_mul_emod_self_left]
  rw [twosBytes, cast, residue, ← leBytes_mod count (_ - _)]
  congr 1

/-- More bytes than an integer needs repeat its sign. -/
theorem twosBytes_add (lower : -(256 ^ count : Nat) ≤ value) (upper : value < (256 ^ count : Nat))
    (more : Nat) :
    twosBytes (count + more) value =
      twosBytes count value ++ List.replicate more (if value < 0 then 255 else 0) := by
  split_ifs with negative
  · have large : 0 < 256 ^ more := Nat.pow_pos (by omega)
    have positive : 0 < 256 ^ count := Nat.pow_pos (by omega)
    have residue : ∀ size : Nat, 256 ^ count ≤ size →
        (value % (size : Int)).toNat = (size + value).toNat := by
      intro size atLeast
      rw [← Int.add_emod_left, Int.emod_eq_of_lt (by omega) (by omega)]
    have low := residue (256 ^ count) le_rfl
    have all := residue (256 ^ count * 256 ^ more) (Nat.le_mul_of_pos_right _ large)
    have parts : (((256 ^ count * 256 ^ more : Nat) : Int) + value).toNat =
        ((256 ^ count : Nat) + value).toNat + 256 ^ count * (256 ^ more - 1) := by
      have split : 256 ^ count * 256 ^ more = 256 ^ count + 256 ^ count * (256 ^ more - 1) := by
        rw [Nat.mul_sub, Nat.mul_one, Nat.add_sub_cancel' (Nat.le_mul_of_pos_right _ large)]
      omega
    push_cast at low all parts
    have small : (256 ^ count + value : Int).toNat < 256 ^ count := by
      have cast := pow_256_cast count
      omega
    rw [twosBytes, twosBytes, pow_add, all, parts, low, leBytes_add,
      ← leBytes_mod count, Nat.add_mul_mod_self_left, leBytes_mod,
      Nat.add_mul_div_left _ _ positive, Nat.div_eq_of_lt small, Nat.zero_add, leBytes_max]
  · rw [twosBytes_of_nonneg (by omega), twosBytes_of_nonneg (by omega), leBytes_append_zeros]
    omega

/-- The lowest bytes depend on the remainder only. -/
theorem twosBytes_congr {value other : Int} (same : value ≡ other [ZMOD 256 ^ count]) :
    twosBytes count value = twosBytes count other := by
  rw [twosBytes, twosBytes, same]

/-- The lowest bytes of more bytes. -/
theorem take_twosBytes (count more : Nat) (value : Int) :
    (twosBytes (count + more) value).take count = twosBytes count value := by
  have positive : (0 : Int) < 256 ^ (count + more) := by positivity
  have divides : (256 : Int) ^ count ∣ 256 ^ (count + more) := pow_dvd_pow _ (Nat.le_add_right _ _)
  have nonnegative := Int.emod_nonneg value positive.ne'
  have power : ((256 : Int) ^ count).toNat = 256 ^ count := by
    rw [pow_256_cast, Int.toNat_natCast]
  rw [twosBytes, twosBytes, take_leBytes, Nat.min_eq_left (Nat.le_add_right _ _),
    ← leBytes_mod, ← Int.emod_emod_of_dvd value divides,
    Int.toNat_emod nonnegative (by positivity), power]

@[simp] theorem length_twosBytes (count : Nat) (value : Int) :
    (twosBytes count value).length = count :=
  length_leBytes _ _

theorem twosBytes_lt : ∀ byte ∈ twosBytes count value, byte < 256 :=
  leBytes_lt

/-- In two's complement, bytes are determined by the integer that they stand for. -/
theorem twosBytes_twosValue (small : ∀ byte ∈ bytes, byte < 256) :
    twosBytes bytes.length (twosValue bytes) = bytes := by
  have below : Nat.ofDigits 256 bytes < 256 ^ bytes.length :=
    Nat.ofDigits_lt_base_pow_length (by omega) small
  have residue : (twosValue bytes % 256 ^ bytes.length).toNat = Nat.ofDigits 256 bytes := by
    have cast := pow_256_cast bytes.length
    rw [twosValue, cast]
    generalize 256 ^ bytes.length = size at *
    split_ifs
    · rw [Int.sub_emod_right, Int.emod_eq_of_lt (by omega) (by omega), Int.toNat_natCast]
    · rw [Int.emod_eq_of_lt (by omega) (by omega), Int.toNat_natCast]
  rw [twosBytes, residue, leBytes_ofDigits small]

/-- Bytes with zeros for the sign stand for no negative integer. -/
theorem twosValue_append_zeros (small : ∀ byte ∈ bytes, byte < 256) {more : Nat}
    (positive : 0 < more) : 0 ≤ twosValue (bytes ++ List.replicate more 0) := by
  have below : Nat.ofDigits 256 bytes < 256 ^ bytes.length :=
    Nat.ofDigits_lt_base_pow_length (by omega) small
  have zeros : Nat.ofDigits 256 (bytes ++ List.replicate more 0) = Nat.ofDigits 256 bytes := by
    rw [Nat.ofDigits_append_replicate_zero]
  have larger : 256 ^ bytes.length * 256 ^ 1 ≤ 256 ^ (bytes ++ List.replicate more 0).length := by
    rw [← Nat.pow_add, length_append, length_replicate]
    exact Nat.pow_le_pow_right (by omega) (by omega)
  rw [twosValue, zeros, if_neg (by omega)]
  exact Int.natCast_nonneg _

/-- The bytes of an integer in range stand for it. -/
theorem twosValue_twosBytes (lower : -(256 ^ count : Nat) ≤ 2 * value)
    (upper : 2 * value < (256 ^ count : Nat)) : twosValue (twosBytes count value) = value := by
  have cast := pow_256_cast count
  have positive : 0 < 256 ^ count := Nat.pow_pos (by omega)
  rw [twosValue, length_twosBytes, twosBytes, ofDigits_leBytes, cast]
  generalize 256 ^ count = size at *
  rcases lt_or_ge value 0 with negative | nonnegative
  · have residue : value % size = value + size := by
      rw [← Int.add_emod_right, Int.emod_eq_of_lt (by omega) (by omega)]
    rw [residue, Nat.mod_eq_of_lt (by omega), if_pos (by omega)]
    omega
  · rw [Int.emod_eq_of_lt nonnegative (by omega), Nat.mod_eq_of_lt (by omega), if_neg (by omega)]
    omega

/-- Reading bytes into a word, the highest one first. -/
theorem foldl_bytes {modulus : Nat} {start : Int} (fits : start.bmod modulus = start)
    (bytes : List Nat) :
    bytes.foldl (fun value byte => (value * 256 + byte).bmod modulus) start =
      (start * 256 ^ bytes.length + (Nat.ofDigits 256 bytes.reverse : Nat)).bmod modulus := by
  induction bytes generalizing start with
  | nil => simp [fits]
  | cons byte bytes ih =>
    rw [foldl_cons, ih (Int.bmod_bmod), Nat.ofDigits_reverse_cons,
      length_cons]
    rw [← Int.bmod_add_bmod, ← Int.bmod_mul_bmod, Int.bmod_bmod, Int.bmod_mul_bmod,
      Int.bmod_add_bmod]
    congr 1
    push_cast
    ring

/-- The highest byte tells whether the upper half of the range is meant. -/
theorem getLast_le_iff {top : Nat} (small : ∀ byte ∈ bytes, byte < 256) :
    128 ≤ top ↔ 256 ^ (bytes.length + 1) ≤ 2 * Nat.ofDigits 256 (bytes ++ [top]) := by
  have below := Nat.ofDigits_lt_base_pow_length (by omega : 1 < 256) small
  rw [Nat.ofDigits_append, Nat.ofDigits_singleton, Nat.pow_succ]
  constructor
  · intro large
    have := Nat.mul_le_mul_left (256 ^ bytes.length) large
    omega
  · intro large
    by_contra less
    have := Nat.mul_le_mul_left (256 ^ bytes.length) (by omega : top ≤ 127)
    omega

end MultiPython.Logic
