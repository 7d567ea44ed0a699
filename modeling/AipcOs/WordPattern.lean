import AipcOs.ByteMemory

/-! Patterns of masked words in an image, and writes that no pattern can take for its own words. -/
namespace AipcOs.WordPattern

abbrev Image (w : Nat) := Nat → BitVec w

/-- A value and the mask of the bits that it says. -/
abbrev Entry (w : Nat) := BitVec w × BitVec w

variable {w : Nat}

def Fits (e : Entry w) (x : BitVec w) : Prop := x &&& e.2 = e.1

instance (e : Entry w) (x : BitVec w) : Decidable (Fits e x) :=
  inferInstanceAs (Decidable (x &&& e.2 = e.1))

def Stands (P : List (Entry w)) (m : Image w) (i : Nat) : Prop :=
  ∀ k (h : k < P.length), Fits P[k] (m (i + k))

instance (P : List (Entry w)) (m : Image w) (i : Nat) : Decidable (Stands P m i) :=
  inferInstanceAs (Decidable (∀ k (h : k < P.length), Fits P[k] (m (i + k))))

def Clash (e e' : Entry w) : Prop := e.1 &&& e'.2 ≠ e'.1 &&& e.2

instance (e e' : Entry w) : Decidable (Clash e e') :=
  inferInstanceAs (Decidable (e.1 &&& e'.2 ≠ e'.1 &&& e.2))

def Apart (P Q : List (Entry w)) (d : Nat) : Prop := ∃ p ∈ (P.drop d).zip Q, Clash p.1 p.2

instance (P Q : List (Entry w)) (d : Nat) : Decidable (Apart P Q d) :=
  inferInstanceAs (Decidable (∃ p ∈ (P.drop d).zip Q, Clash p.1 p.2))

def Solid (P : List (Entry w)) : Prop := ∀ d < P.length, 0 < d → Apart P P d

instance (P : List (Entry w)) : Decidable (Solid P) :=
  inferInstanceAs (Decidable (∀ d < P.length, 0 < d → Apart P P d))

def Separate (P Q : List (Entry w)) : Prop :=
  (∀ d < P.length, Apart P Q d) ∧ ∀ d < Q.length, Apart Q P d

instance (P Q : List (Entry w)) : Decidable (Separate P Q) :=
  inferInstanceAs (Decidable ((∀ d < P.length, Apart P Q d) ∧ ∀ d < Q.length, Apart Q P d))

def write (m : Image w) (i : Nat) : List (Nat × BitVec w) → Image w
  | [] => m
  | p :: ws => write (Function.update m (i + p.1) p.2) i ws

def after (P : List (Entry w)) : List (Nat × BitVec w) → List (Entry w)
  | [] => P
  | p :: ws => after (P.set p.1 (p.2, BitVec.allOnes w)) ws

def sites (P : List (Entry w)) (m : Image w) (n : Nat) : List Nat :=
  (List.range n).filter fun i => Stands P m i

variable {P Q : List (Entry w)} {m m' : Image w} {i j d n : Nat} {ws : List (Nat × BitVec w)}

theorem mem_sites : i ∈ sites P m n ↔ i < n ∧ Stands P m i := by
  rw [sites, List.mem_filter, List.mem_range, decide_eq_true_iff]

theorem not_fits_of_clash {e e' : Entry w} {x : BitVec w} (h : Clash e e') (he : Fits e x) :
    ¬ Fits e' x := by
  intro he'
  apply h
  rw [← he, ← he', BitVec.and_assoc, BitVec.and_assoc, BitVec.and_comm e.2]

theorem Apart.not_stands (h : Apart P Q d) (hP : Stands P m i) : ¬ Stands Q m (i + d) := by
  intro hQ
  obtain ⟨p, hp, hclash⟩ := h
  obtain ⟨k, hk, rfl⟩ := List.mem_iff_getElem.mp hp
  rw [List.length_zip, List.length_drop] at hk
  rw [List.getElem_zip, List.getElem_drop] at hclash
  have hfit := hP (d + k) (by omega)
  rw [← Nat.add_assoc] at hfit
  exact not_fits_of_clash hclash hfit (hQ k (by omega))

theorem Separate.far (h : Separate P Q) (hi : Stands P m i) (hj : Stands Q m j) :
    i + P.length ≤ j ∨ j + Q.length ≤ i := by
  by_contra hlt
  obtain hle | hle := Nat.le_total i j
  · obtain ⟨d, rfl⟩ := Nat.exists_eq_add_of_le hle
    exact (h.1 d (by omega)).not_stands hi hj
  · obtain ⟨d, rfl⟩ := Nat.exists_eq_add_of_le hle
    exact (h.2 d (by omega)).not_stands hj hi

theorem write_other (h : ∀ p ∈ ws, i + p.1 ≠ j) : write m i ws j = m j := by
  induction ws generalizing m with
  | nil => rfl
  | cons p ws ih =>
    rw [write, ih fun q hq => h q (List.mem_cons_of_mem p hq),
      Function.update_of_ne (h p List.mem_cons_self).symm]

/-- What is written to a place depends on no other place. -/
theorem write_congr (h : m' j = m j) : write m' i ws j = write m i ws j := by
  induction ws generalizing m m' with
  | nil => exact h
  | cons p ws ih =>
    refine ih ?_
    by_cases hj : j = i + p.1
    · rw [hj, Function.update_self, Function.update_self]
    · rw [Function.update_of_ne hj, Function.update_of_ne hj, h]

/-- Outside the written place nothing changes. -/
theorem write_outside (hinside : ∀ p ∈ ws, p.1 < n) (h : j < i ∨ i + n ≤ j) :
    write m i ws j = m j := by
  refine write_other fun p hp => ?_
  have hin := hinside p hp
  omega

theorem write_update (h : ∀ p ∈ ws, i + p.1 ≠ j) (x : BitVec w) :
    write (Function.update m j x) i ws = Function.update (write m i ws) j x := by
  induction ws generalizing m with
  | nil => rfl
  | cons p ws ih =>
    rw [write, write, Function.update_comm (h p List.mem_cons_self).symm]
    exact ih fun q hq => h q (List.mem_cons_of_mem p hq)

theorem write_comm {ws' : List (Nat × BitVec w)} (h : ∀ p ∈ ws, ∀ q ∈ ws', i + p.1 ≠ j + q.1) :
    write (write m i ws) j ws' = write (write m j ws') i ws := by
  induction ws' generalizing m with
  | nil => rfl
  | cons q ws' ih =>
    rw [write, write, ← ih fun p hp r hr => h p hp r (List.mem_cons_of_mem q hr),
      write_update fun p hp => h p hp q List.mem_cons_self]

theorem after_length (ws : List (Nat × BitVec w)) : (after P ws).length = P.length := by
  induction ws generalizing P with
  | nil => rfl
  | cons p ws ih => rw [after, ih, List.length_set]

theorem Stands.update (h : Stands P m i) (k : Nat) (x : BitVec w) :
    Stands (P.set k (x, BitVec.allOnes w)) (Function.update m (i + k) x) i := by
  intro l hl
  rw [List.length_set] at hl
  rw [List.getElem_set]
  by_cases hkl : k = l
  · rw [if_pos hkl, ← hkl, Function.update_self]
    exact BitVec.and_allOnes
  · rw [if_neg hkl, Function.update_of_ne (fun heq => hkl (Nat.add_left_cancel heq).symm)]
    exact h l hl

/-- What stands at a place that has been written. -/
theorem Stands.after (h : Stands P m i) : Stands (after P ws) (write m i ws) i := by
  induction ws generalizing P m with
  | nil => exact h
  | cons p ws ih => exact ih (h.update p.1 p.2)

theorem stands_congr (h : ∀ k < P.length, m' (i + k) = m (i + k)) :
    Stands P m' i ↔ Stands P m i := by
  constructor
  · intro hs k hk
    rw [← h k hk]
    exact hs k hk
  · intro hs k hk
    rw [h k hk]
    exact hs k hk

/-- A pattern that comes in neither image near the written place. -/
theorem stands_write_iff (hinside : ∀ p ∈ ws, p.1 < n)
    (h : j < i + n → i < j + P.length → ¬ Stands P m j ∧ ¬ Stands P (write m i ws) j) :
    Stands P (write m i ws) j ↔ Stands P m j := by
  by_cases hnear : j < i + n ∧ i < j + P.length
  · exact iff_of_false (h hnear.1 hnear.2).2 (h hnear.1 hnear.2).1
  · refine stands_congr fun k hk => write_outside hinside ?_
    omega

/-- `Q` comes at no place within the words of `P`, before or after the writes. -/
theorem stands_behind (hP : Stands P m i) (hinside : ∀ p ∈ ws, p.1 < P.length) (hle : i ≤ j)
    (hold : j < i + P.length → Apart P Q (j - i))
    (hnew : j < i + P.length → Apart (after P ws) Q (j - i)) :
    Stands Q (write m i ws) j ↔ Stands Q m j := by
  refine stands_write_iff hinside fun hlt _ => ?_
  have hj : i + (j - i) = j := Nat.add_sub_cancel' hle
  have hbefore := (hold hlt).not_stands hP
  have hthen := (hnew hlt).not_stands hP.after
  rw [hj] at hbefore hthen
  exact ⟨hbefore, hthen⟩

/-- Writes at a place of `P` leave the places of a separate pattern. -/
theorem Separate.stands_iff (h : Separate P Q) (h' : Separate (after P ws) Q) (hP : Stands P m i)
    (hinside : ∀ p ∈ ws, p.1 < P.length) : Stands Q (write m i ws) j ↔ Stands Q m j := by
  refine stands_write_iff hinside fun hlt hlt' => ⟨fun hQ => ?_, fun hQ => ?_⟩
  · have hfar := h.far hP hQ
    omega
  · have hfar := h'.far hP.after hQ
    rw [after_length] at hfar
    omega

theorem Separate.sites_eq (h : Separate P Q) (h' : Separate (after P ws) Q) (hP : Stands P m i)
    (hinside : ∀ p ∈ ws, p.1 < P.length) (n : Nat) :
    sites Q (write m i ws) n = sites Q m n := by
  rw [sites, sites]
  refine List.filter_congr fun j _ => ?_
  rw [decide_eq_decide]
  exact h.stands_iff h' hP hinside

end AipcOs.WordPattern
