import Mathlib.Tactic

set_option autoImplicit false

/-! # Integers as bytes, lowest byte first

A signed integer in two's complement on a little-endian machine: its `n` low bytes (`leBytes`), and
what a reader makes of `n` bytes (`ofLeBytes`). Reading all `n` bytes gives the integer back where it
fits; reading fewer gives its low bytes with the sign of the last one read.
-/

namespace OSLab

/-- The `n` low bytes of `x`. -/
def leBytes : Nat → Int → List UInt8
  | 0, _ => []
  | n + 1, x => UInt8.ofNat (x % 256).toNat :: leBytes n (x / 256)

/-- The bytes as an unsigned number. -/
def leNat : List UInt8 → Int
  | [] => 0
  | b :: bs => b.toNat + 256 * leNat bs

/-- The bytes as a signed number. -/
def ofLeBytes (bs : List UInt8) : Int := Int.bmod (leNat bs) (256 ^ bs.length)

theorem length_leBytes (n : Nat) (x : Int) : (leBytes n x).length = n := by
  induction n generalizing x with
  | zero => rfl
  | succ n ih => rw [leBytes, List.length_cons, ih]

/-- Fewer bytes of a number. -/
theorem take_leBytes {j n : Nat} (hj : j ≤ n) (x : Int) : (leBytes n x).take j = leBytes j x := by
  induction j generalizing n x with
  | zero => rfl
  | succ j ih =>
      obtain ⟨n, rfl⟩ : ∃ n', n = n' + 1 := ⟨n - 1, by omega⟩
      rw [leBytes, List.take_succ_cons, ih (by omega), leBytes]

/-- A number modulo `n + 1` bytes: its low byte, and the `n` above it. -/
theorem emod_bytes_succ (n : Nat) (x : Int) :
    x % 256 ^ (n + 1) = x % 256 + 256 * (x / 256 % 256 ^ n) := by
  have hpos : (0 : Int) < 256 ^ n := by positivity
  have hlow := Int.emod_nonneg (x / 256) hpos.ne'
  have hhigh := Int.emod_lt_of_pos (x / 256) hpos
  have hdiv := Int.emod_add_mul_ediv (x / 256) (256 ^ n)
  have hx : x = x % 256 + 256 * (x / 256 % 256 ^ n) + 256 ^ (n + 1) * (x / 256 / 256 ^ n) := by
    calc x = x % 256 + 256 * (x / 256) := (Int.emod_add_mul_ediv x 256).symm
      _ = x % 256 + 256 * (x / 256 % 256 ^ n + 256 ^ n * (x / 256 / 256 ^ n)) := by rw [hdiv]
      _ = _ := by ring
  calc x % 256 ^ (n + 1)
      = (x % 256 + 256 * (x / 256 % 256 ^ n)) % 256 ^ (n + 1) := by
        conv_lhs => rw [hx]
        exact Int.add_mul_emod_self_left ..
    _ = x % 256 + 256 * (x / 256 % 256 ^ n) := by
        apply Int.emod_eq_of_lt
        · omega
        · rw [pow_succ]
          omega

theorem leNat_leBytes (n : Nat) (x : Int) : leNat (leBytes n x) = x % 256 ^ n := by
  induction n generalizing x with
  | zero => simp [leBytes, leNat]
  | succ n ih =>
      have hbyte : ((UInt8.ofNat (x % 256).toNat).toNat : Int) = x % 256 := by
        rw [UInt8.toNat_ofNat']
        omega
      rw [leBytes, leNat, hbyte, ih, emod_bytes_succ]

/-- **Reading what was written** gives the number modulo the bytes written, with a sign. -/
theorem ofLeBytes_leBytes (n : Nat) (x : Int) :
    ofLeBytes (leBytes n x) = Int.bmod x (256 ^ n) := by
  rw [ofLeBytes, length_leBytes, leNat_leBytes]
  exact_mod_cast Int.emod_bmod x (256 ^ n)

/-- A number that fits is read as it was written. -/
theorem ofLeBytes_of_fits {n : Nat} {x : Int} (hlow : -(256 ^ n : Nat) ≤ x * 2)
    (hhigh : x * 2 < (256 ^ n : Nat)) : ofLeBytes (leBytes n x) = x := by
  rw [ofLeBytes_leBytes]
  exact Int.bmod_eq_of_le_mul_two hlow hhigh

end OSLab
