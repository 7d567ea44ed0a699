import AipcOs.MsbBits

/-! Canonical prefix codes: words of given lengths, in the order of their lengths, as adjoining
intervals of a space of `2 ^ M` places. -/
namespace AipcOs.PrefixCode
open MsbBits
variable {σ : Type*}

def span (M : Nat) : List (σ × Nat) → Nat
  | [] => 0
  | e :: es => 2 ^ (M - e.2) + span M es

def locate (M : Nat) : List (σ × Nat) → Nat → Option σ
  | [], _ => none
  | e :: es, v => if v < 2 ^ (M - e.2) then some e.1 else locate M es (v - 2 ^ (M - e.2))

/-- The words themselves, where `c` is the next free word of length `l`. -/
def wordsFrom : (c l : Nat) → List (σ × Nat) → List (σ × List Bool)
  | _, _, [] => []
  | c, l, e :: es =>
    let next := c * 2 ^ (e.2 - l)
    (e.1, bits e.2 next) :: wordsFrom (next + 1) e.2 es

def Ascending (M l : Nat) : List (σ × Nat) → Prop
  | [] => True
  | e :: es => l ≤ e.2 ∧ e.2 ≤ M ∧ Ascending M e.2 es

variable {M l : Nat} {pre es : List (σ × Nat)}

theorem span_append (pre es : List (σ × Nat)) : span M (pre ++ es) = span M pre + span M es := by
  induction pre with
  | nil => rw [List.nil_append, span, Nat.zero_add]
  | cons e pre ih => rw [List.cons_append, span, span, ih, Nat.add_assoc]

theorem span_add (h : ∀ e ∈ es, e.2 ≤ M) (n : Nat) : span (M + n) es = span M es * 2 ^ n := by
  induction es with
  | nil => rw [span, span, Nat.zero_mul]
  | cons e es ih =>
    have he : M + n - e.2 = M - e.2 + n := by
      have := h e List.mem_cons_self
      omega
    rw [span, span, ih (fun x hx => h x (List.mem_cons_of_mem e hx)), he, Nat.pow_add, Nat.add_mul]

theorem locate_append_left {v : Nat} (h : v < span M pre) :
    locate M (pre ++ es) v = locate M pre v := by
  induction pre generalizing v with
  | nil => exact absurd h (Nat.not_lt_zero v)
  | cons e pre ih =>
    rw [List.cons_append, locate, locate]
    by_cases hv : v < 2 ^ (M - e.2)
    · rw [if_pos hv, if_pos hv]
    · rw [if_neg hv, if_neg hv]
      rw [span] at h
      exact ih (by omega)

theorem locate_append_right (v : Nat) :
    locate M (pre ++ es) (span M pre + v) = locate M es v := by
  induction pre with
  | nil => rw [List.nil_append, span, Nat.zero_add]
  | cons e pre ih =>
    rw [List.cons_append, locate, span, if_neg (by omega), Nat.add_assoc, Nat.add_sub_cancel_left,
      ih]

theorem locate_snoc {e : σ × Nat} {v : Nat} (hle : span M pre ≤ v)
    (hlt : v < span M pre + 2 ^ (M - e.2)) : locate M (pre ++ [e]) v = some e.1 := by
  obtain ⟨d, rfl⟩ := Nat.exists_eq_add_of_le hle
  rw [locate_append_right, locate, if_pos (by omega)]

theorem Ascending.mono {l' : Nat} (h : Ascending M l' es) (hle : l ≤ l') : Ascending M l es := by
  cases es with
  | nil => trivial
  | cons e es => exact ⟨hle.trans h.1, h.2.1, h.2.2⟩

theorem wordsFrom_length {c : Nat} {s : σ} {w : List Bool} (h : (s, w) ∈ wordsFrom c l es) :
    (s, w.length) ∈ es := by
  induction es generalizing c l with
  | nil => simp [wordsFrom] at h
  | cons e es ih =>
    obtain h | h := List.mem_cons.mp h
    · obtain ⟨rfl, rfl⟩ := Prod.mk.inj h
      rw [bits_length]
      exact List.mem_cons_self
    · exact List.mem_cons_of_mem e (ih h)

theorem exists_word {c : Nat} {s : σ} {n : Nat} (h : (s, n) ∈ es) :
    ∃ w, (s, w) ∈ wordsFrom c l es := by
  induction es generalizing c l with
  | nil => cases h
  | cons e es ih =>
    obtain rfl | h := List.mem_cons.mp h
    · exact ⟨_, List.mem_cons_self⟩
    · obtain ⟨w, hw⟩ := ih (c := c * 2 ^ (e.2 - l) + 1) (l := e.2) h
      exact ⟨w, List.mem_cons_of_mem _ hw⟩

/-- A place that begins with a word lies in the interval of that word. -/
theorem locate_wordsFrom {c : Nat} {s : σ} {w : List Bool} (hasc : Ascending M l es)
    (hfit : c * 2 ^ (M - l) + span M es ≤ 2 ^ M) (hw : (s, w) ∈ wordsFrom c l es) {v : Nat}
    (hv : v / 2 ^ (M - w.length) = value w) :
    c * 2 ^ (M - l) ≤ v ∧ locate M es (v - c * 2 ^ (M - l)) = some s := by
  induction es generalizing c l with
  | nil => simp [wordsFrom] at hw
  | cons e es ih =>
    obtain ⟨hl, hM, hrest⟩ := hasc
    have hscale : c * 2 ^ (M - l) = c * 2 ^ (e.2 - l) * 2 ^ (M - e.2) := by
      rw [Nat.mul_assoc, ← Nat.pow_add]
      congr 2
      omega
    rw [hscale] at hfit ⊢
    rw [span] at hfit
    have hpos := Nat.two_pow_pos (M - e.2)
    obtain hw | hw := List.mem_cons.mp hw
    · obtain ⟨rfl, rfl⟩ := Prod.mk.inj hw
      have hsplit : 2 ^ M = 2 ^ e.2 * 2 ^ (M - e.2) := by
        rw [← Nat.pow_add, Nat.add_sub_cancel' hM]
      have hlt : c * 2 ^ (e.2 - l) < 2 ^ e.2 := by
        rw [hsplit] at hfit
        exact lt_of_mul_lt_mul_right (by omega) (Nat.zero_le (2 ^ (M - e.2)))
      rw [bits_length, value_bits, Nat.mod_eq_of_lt hlt, Nat.div_eq_iff hpos] at hv
      refine ⟨hv.1, ?_⟩
      rw [locate, if_pos (by omega)]
    · have hfit' : (c * 2 ^ (e.2 - l) + 1) * 2 ^ (M - e.2) + span M es ≤ 2 ^ M := by
        rw [Nat.succ_mul]
        omega
      obtain ⟨hle, hloc⟩ := ih hrest hfit' hw
      rw [Nat.succ_mul] at hle hloc
      refine ⟨by omega, ?_⟩
      rw [locate, if_neg (by omega), Nat.sub_sub]
      exact hloc

end AipcOs.PrefixCode
