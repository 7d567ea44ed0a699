import Mathlib.Data.Nat.ModEq
import Mathlib.Tactic.Ring

/-! Clocks that wrap: readings of a counter of a fixed size that counts down, and elapsed ticks
counted in whole units. -/
namespace AipcOs.WrapClock

/-- Two readings less than a wrap apart tell the ticks between them. -/
theorem reading_sub {size r r' t t' : Nat} (hr' : r' < size)
    (hsame : r + t ≡ r' + t' [MOD size]) (hle : t ≤ t') (hnear : t' - t < size) :
    (r + size - r') % size = t' - t := by
  have hsum : r + size - r' + (r' + t) ≡ t' - t + (r' + t) [MOD size] := by
    have hleft : r + size - r' + (r' + t) = r + t + size := by omega
    have hright : t' - t + (r' + t) = r' + t' := by omega
    rw [hleft, hright]
    exact (Nat.add_mod_right (r + t) size).trans hsame
  have hcancel := Nat.ModEq.add_right_cancel' _ hsum
  rwa [Nat.ModEq, Nat.mod_eq_of_lt hnear] at hcancel

variable {q a b : Nat}

/-- Whole units between two times are less than one off the ticks between them. -/
theorem units_bounds (hq : 0 < q) (hle : a ≤ b) :
    (b / q - a / q) * q < b - a + q ∧ b - a < (b / q - a / q) * q + q := by
  obtain ⟨d, hd⟩ := Nat.exists_eq_add_of_le (Nat.div_le_div_right (c := q) hle)
  have ha := Nat.div_add_mod a q
  have hb := Nat.div_add_mod b q
  have hra := Nat.mod_lt a hq
  have hrb := Nat.mod_lt b hq
  rw [hd, Nat.mul_add] at hb
  rw [hd, Nat.add_sub_cancel_left, Nat.mul_comm d q]
  constructor <;> omega

end AipcOs.WrapClock
