import Mathlib.Data.List.GetD

/-! Copies from what has been written before: a list that repeats its own end, and a window of
fixed size that holds it. -/
namespace AipcOs.Lz77
variable {α : Type*}

/-- The value `d` places before the end; before the beginning stands `fill`. -/
def back (fill : α) (out : List α) (d : Nat) : α :=
  if d ≤ out.length then out.getD (out.length - d) fill else fill

def repeatBack (fill : α) (d : Nat) : (n : Nat) → List α → List α
  | 0, out => out
  | n + 1, out => repeatBack fill d n (out ++ [back fill out d])

def window (fill : α) (size : Nat) (out : List α) : List α :=
  out ++ List.replicate (size - out.length) fill

variable {fill : α} {d n size : Nat} {out : List α}

theorem repeatBack_length (n : Nat) (out : List α) :
    (repeatBack fill d n out).length = out.length + n := by
  induction n generalizing out with
  | zero => rfl
  | succ n ih =>
    rw [repeatBack, ih, List.length_append, List.length_singleton]
    omega

theorem repeatBack_add (m n : Nat) (out : List α) :
    repeatBack fill d (m + n) out = repeatBack fill d n (repeatBack fill d m out) := by
  induction m generalizing out with
  | zero => rw [Nat.zero_add, repeatBack]
  | succ m ih => rw [Nat.add_right_comm, repeatBack, ih, repeatBack]

/-- Only values that were there before are repeated. -/
theorem mem_repeatBack {x : α} (n : Nat) (out : List α) (h : x ∈ repeatBack fill d n out) :
    x ∈ out ∨ x = fill := by
  induction n generalizing out with
  | zero => exact Or.inl h
  | succ n ih =>
    obtain h | h := ih _ h
    · obtain h | h := List.mem_append.mp h
      · exact Or.inl h
      · rw [List.mem_singleton.mp h, back]
        split
        · rw [List.getD_eq_getElem?_getD]
          cases hx : out[out.length - d]? with
          | none => exact Or.inr rfl
          | some y => exact Or.inl (List.mem_of_getElem? hx)
        · exact Or.inr rfl
    · exact Or.inr h

theorem window_length (h : out.length ≤ size) : (window fill size out).length = size := by
  rw [window, List.length_append, List.length_replicate]
  omega

theorem window_getElem? (h : out.length ≤ size) {i : Nat} (hi : i < size) :
    (window fill size out)[i]? = some (out.getD i fill) := by
  rw [window]
  by_cases hlt : i < out.length
  · rw [List.getElem?_append_left hlt, List.getElem?_eq_getElem hlt, List.getD_eq_getElem _ _ hlt]
  · rw [List.getElem?_append_right (by omega), List.getElem?_replicate, if_pos (by omega),
      List.getD_eq_default _ _ (by omega)]

/-- The next value is written behind the others. -/
theorem window_set (h : out.length < size) (x : α) :
    (window fill size out).set out.length x = window fill size (out ++ [x]) := by
  have hsucc : size - out.length = size - (out ++ [x]).length + 1 := by
    rw [List.length_append, List.length_singleton]
    omega
  rw [window, window, List.set_append_right _ _ (Nat.le_refl _), Nat.sub_self, hsucc, List.replicate_succ,
    List.set_cons_zero, List.append_assoc, List.singleton_append]

end AipcOs.Lz77
