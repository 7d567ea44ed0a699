import Mathlib.Data.List.Basic
import Mathlib.Data.List.Induction

/-! A history that grows at its end: which entries it has, and the last one of a kind. -/
namespace AipcOs.Histories
variable {α : Type*} {h before after : List α} {x y : α}

/-- An entry of a history that grew is the new one, behind all the others, or an old one. -/
theorem entry_of_snoc (heq : h ++ [y] = before ++ x :: after) :
    before = h ∧ x = y ∨ ∃ rest, h = before ++ x :: rest := by
  cases after using List.reverseRecOn with
  | nil =>
    obtain ⟨hfront, hlast⟩ := List.append_inj' heq rfl
    exact Or.inl ⟨hfront.symm, (List.head_eq_of_cons_eq hlast).symm⟩
  | append_singleton rest last _ =>
    rw [← List.cons_append, ← List.append_assoc] at heq
    exact Or.inr ⟨rest, List.append_inj_left' heq rfl⟩

/-- What held of each entry and those before it holds on if it holds of the new one. -/
theorem forall_entry_snoc {P : List α → α → Prop}
    (hold : ∀ before x after, h = before ++ x :: after → P before x) (hnew : P h y) :
    ∀ before x after, h ++ [y] = before ++ x :: after → P before x := by
  intro before x after heq
  obtain ⟨rfl, rfl⟩ | ⟨rest, hrest⟩ := entry_of_snoc heq
  · exact hnew
  · exact hold before x rest hrest

theorem exists_last_entry {p : α → Prop} (hex : ∃ x ∈ h, p x) :
    ∃ before x after, h = before ++ x :: after ∧ p x ∧ ∀ y ∈ after, ¬p y := by
  induction h using List.reverseRecOn with
  | nil => simp at hex
  | append_singleton h z ih =>
    by_cases hz : p z
    · exact ⟨h, z, [], rfl, hz, by simp⟩
    · obtain ⟨x, hx, hpx⟩ := hex
      have hmem : x ∈ h := by
        obtain hx | hx := List.mem_append.mp hx
        · exact hx
        · exact absurd (List.mem_singleton.mp hx ▸ hpx) hz
      obtain ⟨before, x', after, rfl, hx', hafter⟩ := ih ⟨x, hmem, hpx⟩
      refine ⟨before, x', after ++ [z], by simp, hx', fun y hy => ?_⟩
      obtain hy | hy := List.mem_append.mp hy
      · exact hafter y hy
      · exact List.mem_singleton.mp hy ▸ hz

end AipcOs.Histories
