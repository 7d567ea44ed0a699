import Mathlib.Data.List.Basic
import Mathlib.Data.List.TakeWhile
import Mathlib.Data.Nat.Basic

/-! Runs of equal samples, and windows of a fixed size, of a stream that grows at its end. -/
namespace AipcOs.SampleRuns
variable {α : Type*}

section Equality
variable [DecidableEq α]

def currentRun (xs : List α) : Nat :=
  match xs.reverse with
  | [] => 0
  | x :: rest => (rest.takeWhile (· = x)).length + 1

def firstCount : List α → Nat
  | [] => 0
  | x :: rest => rest.count x + 1

theorem currentRun_snoc_self (xs : List α) (x : α) :
    currentRun (xs ++ [x] ++ [x]) = currentRun (xs ++ [x]) + 1 := by
  simp [currentRun]

theorem currentRun_snoc_ne (xs : List α) {x y : α} (h : y ≠ x) :
    currentRun (xs ++ [x] ++ [y]) = 1 := by
  simp [currentRun, h.symm]

theorem firstCount_snoc (first x : α) (rest : List α) :
    firstCount (first :: rest ++ [x]) =
      firstCount (first :: rest) + if x = first then 1 else 0 := by
  by_cases h : x = first <;> simp [firstCount, h]

end Equality

def window (size : Nat) (xs : List α) : List α := xs.drop ((xs.length - 1) / size * size)

variable {size : Nat}

/-- A full window is left behind. -/
theorem window_snoc_new (xs : List α) (x : α) (h : xs.length % size = 0) :
    window size (xs ++ [x]) = [x] := by
  have hstart : xs.length / size * size = xs.length := Nat.div_mul_cancel (Nat.dvd_of_mod_eq_zero h)
  simp [window, hstart]

theorem window_snoc (xs : List α) (x : α) (h : xs.length % size ≠ 0) :
    window size (xs ++ [x]) = window size xs ++ [x] := by
  have hpos : xs.length ≠ 0 := fun h0 => h (by rw [h0, Nat.zero_mod])
  obtain ⟨n, hn⟩ := Nat.exists_eq_succ_of_ne_zero hpos
  have hstart : (xs.length - 1) / size = xs.length / size := by
    rw [hn, Nat.succ_sub_one, Nat.succ_div_of_not_dvd]
    exact fun hdvd => h (hn ▸ Nat.mod_eq_zero_of_dvd hdvd)
  have hle : xs.length / size * size ≤ xs.length := Nat.div_mul_le_self _ _
  simp [window, hstart, List.drop_append_of_le_length hle]

theorem window_length (xs : List α) (h : xs ≠ []) :
    (window size xs).length = (xs.length - 1) % size + 1 := by
  have hpos := List.length_pos_iff.mpr h
  have hdiv := Nat.div_add_mod' (xs.length - 1) size
  rw [window, List.length_drop]
  omega

end AipcOs.SampleRuns
