import Mathlib.Data.Nat.Dist
import Mathlib.Order.Lattice
import Mathlib.Tactic.Order

/-! A scan that keeps the candidate with the least error and, among those, the widest; and the
two neighbours of a threshold, one of which is nearest when the values fall. -/
namespace AipcOs.NearestSearch

section Scan
variable {α β γ : Type*} [LinearOrder β] [LinearOrder γ] (error : α → β) (width : α → γ)

def improve (best : Option α) (c : α) : Option α :=
  match best with
  | none => some c
  | some b =>
    if error c > error b then some b
    else if error c = error b ∧ width c ≤ width b then some b
    else some c

structure Best (cs : List α) (b : α) : Prop where
  mem : b ∈ cs
  least : ∀ c ∈ cs, error b ≤ error c
  widest : ∀ c ∈ cs, error c = error b → width c ≤ width b

variable {error width} {cs : List α} {b c : α}

theorem best_singleton (c : α) : Best error width [c] c where
  mem := List.mem_singleton_self c
  least := by simp
  widest := by simp

theorem Best.keep (h : Best error width cs b) (hle : error b ≤ error c)
    (htie : error c = error b → width c ≤ width b) : Best error width (cs ++ [c]) b where
  mem := List.mem_append_left _ h.mem
  least := by
    intro d hd
    obtain hd | hd := List.mem_append.mp hd
    · exact h.least d hd
    · exact List.mem_singleton.mp hd ▸ hle
  widest := by
    intro d hd hdb
    obtain hd | hd := List.mem_append.mp hd
    · exact h.widest d hd hdb
    · obtain rfl := List.mem_singleton.mp hd
      exact htie hdb

theorem Best.replace (h : Best error width cs b) (hle : error c ≤ error b)
    (htie : error c = error b → width b ≤ width c) : Best error width (cs ++ [c]) c where
  mem := List.mem_append_right _ (List.mem_singleton_self c)
  least := by
    intro d hd
    obtain hd | hd := List.mem_append.mp hd
    · exact hle.trans (h.least d hd)
    · exact List.mem_singleton.mp hd ▸ le_rfl
  widest := by
    intro d hd hdc
    obtain hd | hd := List.mem_append.mp hd
    · have hcb : error c = error b := le_antisymm hle (hdc ▸ h.least d hd)
      exact (h.widest d hd (hdc.trans hcb)).trans (htie hcb)
    · exact List.mem_singleton.mp hd ▸ le_rfl

theorem improve_best (h : Best error width cs b) (c : α) :
    ∃ b', improve error width (some b) c = some b' ∧ Best error width (cs ++ [c]) b' := by
  by_cases hgt : error c > error b
  · exact ⟨b, if_pos hgt, h.keep hgt.le fun heq => absurd heq hgt.ne'⟩
  · by_cases htie : error c = error b ∧ width c ≤ width b
    · exact ⟨b, (if_neg hgt).trans (if_pos htie), h.keep htie.1.ge fun _ => htie.2⟩
    · refine ⟨c, (if_neg hgt).trans (if_neg htie), h.replace (not_lt.mp hgt) fun heq => ?_⟩
      exact (not_le.mp fun hle => htie ⟨heq, hle⟩).le

theorem foldl_improve_some (h : Best error width cs b) (rest : List α) :
    ∃ b', rest.foldl (improve error width) (some b) = some b' ∧
      Best error width (cs ++ rest) b' := by
  induction rest generalizing cs b with
  | nil => exact ⟨b, rfl, by simpa using h⟩
  | cons c rest ih =>
    obtain ⟨b', hstep, hbest⟩ := improve_best h c
    obtain ⟨b'', hrun, hall⟩ := ih hbest
    refine ⟨b'', ?_, by simpa using hall⟩
    rw [List.foldl_cons, hstep, hrun]

/-- The scan of any candidates ends with the best of them. -/
theorem foldl_improve (error : α → β) (width : α → γ) (hne : cs ≠ []) :
    ∃ b, cs.foldl (improve error width) none = some b ∧ Best error width cs b := by
  cases cs with
  | nil => exact absurd rfl hne
  | cons c rest => exact foldl_improve_some (best_singleton c) rest

end Scan

section Neighbours
variable {f : Nat → Nat} {r s lo hi : Nat}

def clamped (lo hi n : Nat) : Nat := max lo (min n hi)

theorem clamped_mem (h : lo ≤ hi) (n : Nat) : lo ≤ clamped lo hi n ∧ clamped lo hi n ≤ hi := by
  simp only [clamped]
  omega

/-- Where falling values cross `r` behind `s`, one of the two neighbours is as near as any. -/
theorem nearest_neighbour (hanti : ∀ d e, lo ≤ d → d ≤ e → f e ≤ f d)
    (habove : ∀ d, lo ≤ d → d ≤ s → r ≤ f d) (hbelow : ∀ d, s < d → f d ≤ r)
    (d : Nat) (hlo : lo ≤ d) (hhi : d ≤ hi) :
    Nat.dist (f (clamped lo hi s)) r ≤ Nat.dist (f d) r ∨
      Nat.dist (f (clamped lo hi (s + 1))) r ≤ Nat.dist (f d) r := by
  by_cases hd : d ≤ s
  · left
    have hclamp : lo ≤ clamped lo hi s ∧ clamped lo hi s ≤ s ∧ d ≤ clamped lo hi s := by
      simp only [clamped]
      omega
    have hvalue := habove (clamped lo hi s) hclamp.1 hclamp.2.1
    have hfall := hanti d (clamped lo hi s) hlo hclamp.2.2
    rw [Nat.dist_eq_sub_of_le_right hvalue, Nat.dist_eq_sub_of_le_right (hvalue.trans hfall)]
    exact Nat.sub_le_sub_right hfall r
  · right
    have hclamp : lo ≤ clamped lo hi (s + 1) ∧ s < clamped lo hi (s + 1) ∧
        clamped lo hi (s + 1) ≤ d := by
      simp only [clamped]
      omega
    have hvalue := hbelow d (not_le.mp hd)
    have hfall := hanti (clamped lo hi (s + 1)) d hclamp.1 hclamp.2.2
    rw [Nat.dist_eq_sub_of_le (hbelow _ hclamp.2.1), Nat.dist_eq_sub_of_le hvalue]
    exact Nat.sub_le_sub_left hfall r

end Neighbours

/-- Dividing by more leaves less. -/
theorem div_mul_antitone (p k : Nat) {d e : Nat} (hk : 0 < k) (hd : 0 < d) (hde : d ≤ e) :
    p / (e * k) ≤ p / (d * k) :=
  Nat.div_le_div_left (Nat.mul_le_mul_right k hde) (Nat.mul_pos hd hk)

end AipcOs.NearestSearch
