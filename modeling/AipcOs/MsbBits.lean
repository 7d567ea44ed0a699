import Mathlib.Data.Stream.Init
import Mathlib.Data.Nat.Bitwise
import Mathlib.Tactic.Ring

/-! Numbers as words of bits with the highest bit first, and words at a place of an endless
stream. -/
namespace AipcOs.MsbBits

/-- The `n` low bits of a number, highest first. -/
def bits : Nat → Nat → List Bool
  | 0, _ => []
  | n + 1, v => v.testBit n :: bits n v

def value : List Bool → Nat
  | [] => 0
  | b :: w => b.toNat * 2 ^ w.length + value w

@[simp] theorem bits_length (n v : Nat) : (bits n v).length = n := by
  induction n with
  | zero => rfl
  | succ n ih => rw [bits, List.length_cons, ih]

theorem value_lt (w : List Bool) : value w < 2 ^ w.length := by
  induction w with
  | nil => exact Nat.zero_lt_one
  | cons b w ih =>
    rw [value, List.length_cons, Nat.pow_succ]
    cases b
    · rw [Bool.toNat_false]
      omega
    · rw [Bool.toNat_true]
      omega

theorem value_bits (n v : Nat) : value (bits n v) = v % 2 ^ n := by
  induction n with
  | zero => simp [bits, value, Nat.mod_one]
  | succ n ih =>
    rw [bits, value, bits_length, ih, Nat.mod_pow_succ, Nat.toNat_testBit, Nat.add_comm,
      Nat.mul_comm]

theorem bits_getElem (n v i : Nat) (h : i < (bits n v).length) :
    (bits n v)[i] = v.testBit (n - 1 - i) := by
  induction n generalizing i with
  | zero => simp [bits] at h
  | succ n ih =>
    cases i with
    | zero => simp [bits]
    | succ i =>
      have hi : i < (bits n v).length := by simpa [bits] using h
      have hrec := ih i hi
      simp only [bits, List.getElem_cons_succ]
      rw [hrec]
      congr 1
      omega

theorem bits_inj {n a b : Nat} (ha : a < 2 ^ n) (hb : b < 2 ^ n) (h : bits n a = bits n b) :
    a = b := by
  have hv := congrArg value h
  rwa [value_bits, value_bits, Nat.mod_eq_of_lt ha, Nat.mod_eq_of_lt hb] at hv

theorem value_inj {u w : List Bool} (hlen : u.length = w.length) (h : value u = value w) :
    u = w := by
  induction u generalizing w with
  | nil => exact (List.length_eq_zero_iff.mp hlen.symm).symm
  | cons b u ih =>
    cases w with
    | nil => cases hlen
    | cons c w =>
      have hl : u.length = w.length := by simpa using hlen
      have hu := value_lt u
      have hw := value_lt w
      rw [value, value, hl] at h
      rw [hl] at hu
      cases b <;> cases c <;> simp only [Bool.toNat_false, Bool.toNat_true] at h
      · rw [ih hl (by omega)]
      · omega
      · omega
      · rw [ih hl (by omega)]

theorem bits_value (w : List Bool) : bits w.length (value w) = w := by
  apply value_inj (bits_length _ _)
  rw [value_bits, Nat.mod_eq_of_lt (value_lt w)]

def valueAt (s : Stream' Bool) (p n : Nat) : Nat := value ((s.drop p).take n)

def Spells (s : Stream' Bool) (p : Nat) (w : List Bool) : Prop := (s.drop p).take w.length = w

theorem spells_iff {s : Stream' Bool} {p : Nat} {w : List Bool} :
    Spells s p w ↔ ∀ i (h : i < w.length), s.get (p + i) = w[i] := by
  have hget (i : Nat) (h : i < w.length) :
      ((s.drop p).take w.length)[i]? = some (s.get (p + i)) := by
    rw [Stream'.getElem?_take h, Stream'.get_drop]
  constructor
  · intro hw i hi
    have h := hget i hi
    rw [hw, List.getElem?_eq_getElem hi] at h
    exact (Option.some.inj h).symm
  · intro h
    apply List.ext_getElem?
    intro i
    by_cases hi : i < w.length
    · rw [hget i hi, List.getElem?_eq_getElem hi, h i hi]
    · rw [List.getElem?_eq_none (by rw [Stream'.length_take]; omega),
        List.getElem?_eq_none (by omega)]

theorem spells_append {s : Stream' Bool} {p : Nat} {u w : List Bool} :
    Spells s p (u ++ w) ↔ Spells s p u ∧ Spells s (p + u.length) w := by
  simp only [spells_iff]
  constructor
  · intro h
    constructor
    · intro i hi
      rw [h i (by rw [List.length_append]; omega), List.getElem_append_left hi]
    · intro i hi
      have hr := h (u.length + i) (by rw [List.length_append]; omega)
      rw [List.getElem_append_right (by omega)] at hr
      simpa [Nat.add_assoc] using hr
  · intro h i hi
    by_cases hu : i < u.length
    · rw [h.1 i hu, List.getElem_append_left hu]
    · have hw : i - u.length < w.length := by
        rw [List.length_append] at hi
        omega
      have hr := h.2 (i - u.length) hw
      rw [List.getElem_append_right (by omega), ← hr]
      congr 1
      omega

theorem valueAt_lt (s : Stream' Bool) (p n : Nat) : valueAt s p n < 2 ^ n := by
  have h := value_lt ((s.drop p).take n)
  rwa [Stream'.length_take] at h

theorem valueAt_of_spells {s : Stream' Bool} {p : Nat} {w : List Bool} (h : Spells s p w) :
    valueAt s p w.length = value w := by
  rw [valueAt, h]

theorem valueAt_bits {s : Stream' Bool} {p n v : Nat} (h : Spells s p (bits n v)) :
    valueAt s p n = v % 2 ^ n := by
  have hv := valueAt_of_spells h
  rwa [bits_length, value_bits] at hv

end AipcOs.MsbBits
