import Mathlib

/-! Texts in a window of cells: the text from the first cell on, zeros behind it. A text without
zeros is found again from its terminator alone. -/
namespace AipcOs.Terminated
variable {β : Type*} [Zero β] {size : Nat} {f : Nat → β} {text : List β}

structure Holds (size : Nat) (f : Nat → β) (text : List β) : Prop where
  fits : text.length < size
  cells : ∀ k < size, f k = text.getD k 0

theorem Holds.nil (h : 0 < size) (hf : ∀ k < size, f k = 0) : Holds size f [] :=
  ⟨h, fun k hk => by simp [hf k hk]⟩

theorem Holds.congr {g : Nat → β} (h : Holds size f text) (hg : ∀ k < size, g k = f k) :
    Holds size g text :=
  ⟨h.fits, fun k hk => (hg k hk).trans (h.cells k hk)⟩

theorem getD_snoc (text : List β) (c : β) (k : Nat) :
    (text ++ [c]).getD k 0 = if k = text.length then c else text.getD k 0 := by
  obtain hlt | rfl | hgt := Nat.lt_trichotomy k text.length
  · rw [if_neg hlt.ne, List.getD_append _ _ _ _ hlt]
  · simp
  · rw [if_neg hgt.ne', List.getD_eq_default _ _ hgt.le, List.getD_eq_default]
    rw [List.length_append, List.length_singleton]
    exact hgt

/-- One more character over the terminator. The next cell is the new terminator. -/
theorem Holds.snoc (h : Holds size f text) (c : β) (hroom : text.length + 1 < size) :
    Holds size (Function.update f text.length c) (text ++ [c]) := by
  refine ⟨by simpa using hroom, ?_⟩
  intro k hk
  rw [getD_snoc, Function.update_apply, h.cells k hk]

theorem Holds.map_range (h : Holds size f text) : (List.range text.length).map f = text := by
  apply List.ext_getElem (by simp)
  intro k hk hk'
  have hfits := h.fits
  rw [List.getElem_map, List.getElem_range, h.cells k (by omega), List.getD_eq_getElem]

theorem Holds.eq_zero_iff (h : Holds size f text) (hne : ∀ c ∈ text, c ≠ 0) {k : Nat}
    (hk : k < size) : f k = 0 ↔ text.length ≤ k := by
  rw [h.cells k hk]
  constructor
  · intro hzero
    by_contra hlt
    rw [List.getD_eq_getElem _ _ (not_le.mp hlt)] at hzero
    exact hne _ (List.getElem_mem _) hzero
  · exact List.getD_eq_default _ _

/-- Cutting at every character is cutting at the end. -/
theorem take_snoc {α : Type*} (n : Nat) (text : List α) (c : α) :
    (text ++ [c]).take n = (text.take n ++ [c]).take n := by
  rw [List.take_append, List.take_append, List.take_take, Nat.min_self, List.length_take]
  congr 2
  omega

end AipcOs.Terminated
