import Mathlib

/-! Cutting a list into consecutive pieces of a fixed length. The last one may be short. -/
namespace AipcOs.Pieces
variable {α : Type*}

def pieces (n : Nat) (l : List α) : List (List α) :=
  if _h : l = [] ∨ n = 0 then [] else l.take n :: pieces n (l.drop n)
termination_by l.length
decreasing_by
  rw [not_or] at _h
  have := List.length_pos_iff.mpr _h.1
  rw [List.length_drop]
  omega

theorem pieces_nil (n : Nat) : pieces n ([] : List α) = [] := by
  rw [pieces, dif_pos (Or.inl rfl)]

theorem pieces_of_ne_nil {n : Nat} (hn : n ≠ 0) {l : List α} (hl : l ≠ []) :
    pieces n l = l.take n :: pieces n (l.drop n) := by
  rw [pieces, dif_neg (not_or.mpr ⟨hl, hn⟩)]

/-- Induction over the pieces: a list is empty, or its first piece comes off. -/
theorem pieces_induction {n : Nat} (hn : n ≠ 0) {motive : List α → Prop} (nil : motive [])
    (piece : ∀ l, l ≠ [] → motive (l.drop n) → motive l) (l : List α) : motive l := by
  induction hlen : l.length using Nat.strong_induction_on generalizing l with
  | _ len ih =>
    by_cases hl : l = []
    · rw [hl]
      exact nil
    · have hpos := List.length_pos_iff.mpr hl
      refine piece l hl (ih (l.drop n).length ?_ _ rfl)
      rw [List.length_drop]
      omega

theorem pieces_of_length_le {n : Nat} (hn : n ≠ 0) {l : List α} (hl : l ≠ [])
    (h : l.length ≤ n) : pieces n l = [l] := by
  rw [pieces_of_ne_nil hn hl, List.take_of_length_le h, List.drop_of_length_le h, pieces_nil]

theorem flatten_pieces {n : Nat} (hn : n ≠ 0) (l : List α) : (pieces n l).flatten = l := by
  induction l using pieces_induction hn with
  | nil => rw [pieces_nil, List.flatten_nil]
  | piece l hl ih => rw [pieces_of_ne_nil hn hl, List.flatten_cons, ih, List.take_append_drop]

theorem mem_pieces {n : Nat} (hn : n ≠ 0) (l p : List α) :
    p ∈ pieces n l ↔ ∃ i, n * i < l.length ∧ p = (l.drop (n * i)).take n := by
  induction l using pieces_induction hn with
  | nil => simp [pieces_nil]
  | piece l hl ih =>
    rw [pieces_of_ne_nil hn hl, List.mem_cons, ih]
    constructor
    · intro hor
      obtain rfl | ⟨i, hi, rfl⟩ := hor
      · exact ⟨0, by simpa using List.length_pos_iff.mpr hl, by simp⟩
      · rw [List.length_drop] at hi
        refine ⟨i + 1, by rw [Nat.mul_succ]; omega, ?_⟩
        rw [List.drop_drop, Nat.mul_succ, Nat.add_comm]
    · intro hex
      obtain ⟨i, hi, rfl⟩ := hex
      cases i with
      | zero => exact Or.inl (by simp)
      | succ i =>
        rw [Nat.mul_succ] at hi
        refine Or.inr ⟨i, by rw [List.length_drop]; omega, ?_⟩
        rw [List.drop_drop, Nat.mul_succ, Nat.add_comm]

theorem pieces_append {n : Nat} (hn : n ≠ 0) (a b : List α) (h : n ∣ a.length) :
    pieces n (a ++ b) = pieces n a ++ pieces n b := by
  induction a using pieces_induction hn with
  | nil => simp [pieces_nil]
  | piece a ha ih =>
    have hle : n ≤ a.length := Nat.le_of_dvd (List.length_pos_iff.mpr ha) h
    have hdvd : n ∣ (a.drop n).length := by
      rw [List.length_drop]
      exact Nat.dvd_sub h dvd_rfl
    rw [pieces_of_ne_nil hn ha, pieces_of_ne_nil hn (by simp [ha]), List.take_append_of_le_length hle,
      List.drop_append_of_le_length hle, ih hdvd, List.cons_append]

/-- Cutting the pieces again at a divisor of their length cuts the whole list there. -/
theorem flatMap_pieces {n k : Nat} (hn : n ≠ 0) (hk : k ≠ 0) (l : List α) :
    (pieces (n * k) l).flatMap (pieces n) = pieces n l := by
  have hnk : n * k ≠ 0 := Nat.mul_ne_zero hn hk
  induction l using pieces_induction hnk with
  | nil => simp [pieces_nil]
  | piece l hl ih =>
    rw [pieces_of_ne_nil hnk hl, List.flatMap_cons, ih]
    by_cases hle : n * k ≤ l.length
    · have hdvd : n ∣ (l.take (n * k)).length := by
        rw [List.length_take, Nat.min_eq_left hle]
        exact Nat.dvd_mul_right n k
      rw [← pieces_append hn _ _ hdvd, List.take_append_drop]
    · have hshort : l.length ≤ n * k := (not_le.mp hle).le
      rw [List.take_of_length_le hshort, List.drop_of_length_le hshort, pieces_nil,
        List.append_nil]

theorem dvd_length_of_mem_pieces {d n : Nat} (hn : n ≠ 0) (hd : d ∣ n) {l p : List α}
    (hl : d ∣ l.length) (hp : p ∈ pieces n l) : d ∣ p.length := by
  obtain ⟨i, -, rfl⟩ := (mem_pieces hn l p).mp hp
  rw [List.length_take, List.length_drop]
  rcases Nat.le_total n (l.length - n * i) with h | h
  · rwa [Nat.min_eq_left h]
  · rw [Nat.min_eq_right h]
    exact Nat.dvd_sub hl (Dvd.dvd.mul_right hd i)

end AipcOs.Pieces
