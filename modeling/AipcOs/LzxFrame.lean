import AipcOs.LzxTokens

/-! What __decompress_block leaves alone, whatever the bits are that it reads. -/
namespace AipcOs.LzxFrame
open ByteMemory LzxBits LzxTable LzxSymbols LzxLengths LzxBlock

def Yields {α : Type} (f : Bits α) (P : α → Prop) : Prop :=
  ∀ b a b', f b = some (a, b') → P a

namespace Yields

variable {α β : Type} {f : Bits α} {g : α → Bits β} {P : α → Prop} {Q : β → Prop}

theorem pure {a : α} (h : P a) : Yields (Pure.pure a : Bits α) P := by
  intro b a' b' hrun
  cases hrun
  exact h

theorem bind (hf : Yields f P) (hg : ∀ a, P a → Yields (g a) Q) : Yields (f >>= g) Q := by
  intro b c b'' hrun
  change (f b >>= fun r => g r.1 r.2) = _ at hrun
  cases hfb : f b with
  | none =>
    rw [hfb] at hrun
    cases hrun
  | some r =>
    rw [hfb] at hrun
    exact hg r.1 (hf b r.1 r.2 hfb) r.2 c b'' hrun

theorem any : Yields f fun _ => True := fun _ _ _ _ => trivial

theorem lift {o : Option α} (hg : ∀ a, o = some a → Yields (g a) Q) :
    Yields (do let r ← o; g r) Q := by
  cases o with
  | none =>
    intro b c b' hrun
    cases hrun
  | some a => exact hg a rfl

theorem ite {c : Prop} [Decidable c] {f' : Bits α} (hf : c → Yields f P) (hf' : ¬c → Yields f' P) :
    Yields (if c then f else f') P := by
  by_cases hc : c
  · rw [if_pos hc]
    exact hf hc
  · rw [if_neg hc]
    exact hf' hc

end Yields

theorem walk_lt {table : List Nat} {nsyms e i s : Nat} {buffer : Word}
    (h : walk table nsyms buffer e i = some (some s)) : s < nsyms := by
  induction e generalizing i with
  | zero => cases h
  | succ e ih =>
    rw [walk] at h
    split at h
    · cases h
    · split at h
      · rename_i hlt
        cases h
        exact hlt
      · exact ih h

theorem findSym_lt {table : List Nat} {nsyms nbits s : Nat} {b : BitBuffer}
    (h : findSym table nsyms nbits b = some (some s)) : s < nsyms := by
  rw [findSym] at h
  split at h
  · cases h
  · split at h
    · rename_i hlt
      cases h
      exact hlt
    · exact walk_lt h

/-- A symbol of the alphabet is yielded, or 0 where none is found. -/
theorem readHuffSym_yields {table lengths : List Nat} {nsyms nbits codeword : Nat}
    (hpos : 0 < nsyms) :
    Yields (readHuffSym table lengths nsyms nbits codeword) (· < nsyms) := by
  refine Yields.any.bind fun _ _ => ?_
  refine Yields.any.bind fun b _ => ?_
  refine Yields.lift fun r hr => ?_
  cases r with
  | none => exact Yields.pure hpos
  | some i =>
    refine Yields.lift fun j _ => ?_
    refine Yields.any.bind fun _ _ => ?_
    exact Yields.pure (findSym_lt hr)

theorem matchLength_yields (s : LZXState) (main_element : Nat) :
    Yields (matchLength s main_element) fun n => 2 ≤ n ∧ n ≤ 257 := by
  have hand : main_element &&& NUM_PRIMARY_LENGTHS ≤ 7 := Nat.and_le_right
  refine Yields.ite (fun h => ?_) fun h => Yields.pure ?_
  · have hread : Yields (readHuffSymLentree s) (· < 249) := readHuffSym_yields (by decide)
    refine hread.bind fun n hn => Yields.pure ?_
    rw [h, NUM_PRIMARY_LENGTHS, MIN_MATCH]
    omega
  · rw [MIN_MATCH]
    omega

structure Touched (lo hi : Nat) (w w' : List Byte) : Prop where
  length : w'.length = w.length
  inside : lo < hi → hi ≤ w.length
  outside : ∀ i, i < lo ∨ hi ≤ i → w'[i]? = w[i]?

namespace Touched

variable {lo mid hi : Nat} {w w' w'' : List Byte}

theorem refl (lo : Nat) (w : List Byte) : Touched lo lo w w :=
  ⟨rfl, fun h => absurd h (Nat.lt_irrefl lo), fun _ _ => rfl⟩

theorem trans (h : Touched lo mid w w') (h' : Touched mid hi w' w'') (hlo : lo ≤ mid)
    (hhi : mid ≤ hi) : Touched lo hi w w'' := by
  have hin := h.inside
  have hin' := h'.inside
  have hlen := h.length
  refine ⟨h'.length.trans hlen, fun hlt => ?_, fun i hi => ?_⟩
  · obtain hmid | rfl := Nat.lt_or_eq_of_le hhi
    · rw [← hlen]
      exact hin' hmid
    · exact hin hlt
  · rw [h'.outside i (by omega), h.outside i (by omega)]

end Touched

theorem putByte_touched {w w' : List Byte} {i : Nat} {v : Byte} (h : putByte w i v = some w') :
    Touched i (i + 1) w w' := by
  rw [putByte] at h
  split at h
  · rename_i hi
    obtain rfl := Option.some.inj h
    refine ⟨List.length_set, fun _ => hi, fun j hj => ?_⟩
    rw [List.getElem?_set_ne (by omega)]
  · cases h

theorem copyRun_touched {n rundest : Nat} {runsrc : Int} {w w' : List Byte}
    (h : copyRun n rundest runsrc w = some w') : Touched rundest (rundest + n) w w' := by
  induction n generalizing rundest runsrc w with
  | zero =>
    obtain rfl := Option.some.inj h
    exact Touched.refl _ _
  | succ n ih =>
    rw [copyRun] at h
    obtain ⟨i, -, h⟩ := Option.bind_eq_some_iff.mp h
    obtain ⟨v, -, h⟩ := Option.bind_eq_some_iff.mp h
    obtain ⟨w1, hput, h⟩ := Option.bind_eq_some_iff.mp h
    have hrest := ih h
    rw [Nat.add_assoc, Nat.add_comm 1] at hrest
    exact (putByte_touched hput).trans hrest (Nat.le_add_right _ _) (by omega)

theorem copyWindow_touched {s : LZXState} {match_offset match_length : Nat} {w' : List Byte}
    (h : copyWindow s match_offset match_length = some w') :
    Touched s.window_posn (s.window_posn + match_length) s.window w' := by
  rw [copyWindow] at h
  split at h
  · exact copyRun_touched h
  · simp only at h
    split at h
    · rename_i hlt
      obtain ⟨w1, hfirst, hsecond⟩ := Option.bind_eq_some_iff.mp h
      have hsum : s.window_posn + (match_offset - s.window_posn) +
          (match_length - (match_offset - s.window_posn)) = s.window_posn + match_length := by
        omega
      have h2 := copyRun_touched hsecond
      rw [hsum] at h2
      exact (copyRun_touched hfirst).trans h2 (Nat.le_add_right _ _) (by omega)
    · exact copyRun_touched h

def Same (s s' : LZXState) : Prop :=
  s' = { s with
    R0 := s'.R0, R1 := s'.R1, R2 := s'.R2
    window := s'.window, window_posn := s'.window_posn, block_remaining := s'.block_remaining }

/-- The place moves on by what the rest of the block goes down by, and only the bytes between
the two places are written. -/
structure Moved (s s' : LZXState) : Prop where
  same : Same s s'
  posn : (s'.window_posn : Int) + s'.block_remaining = s.window_posn + s.block_remaining
  le : s.window_posn ≤ s'.window_posn
  window : Touched s.window_posn s'.window_posn s.window s'.window

namespace Moved

variable {s s' s'' : LZXState}

theorem refl (s : LZXState) : Moved s s := ⟨rfl, rfl, le_rfl, Touched.refl _ _⟩

theorem trans (h : Moved s s') (h' : Moved s' s'') : Moved s s'' := by
  refine ⟨?_, h'.posn.trans h.posn, h.le.trans h'.le, h.window.trans h'.window h.le h'.le⟩
  have hs := h.same
  have hs' := h'.same
  rw [Same] at hs hs' ⊢
  rw [hs] at hs'
  exact hs'

end Moved

structure Stepped (s s' : LZXState) : Prop where
  moved : Moved s s'
  less : s.block_remaining - 257 ≤ s'.block_remaining ∧ s'.block_remaining < s.block_remaining

theorem matchOffset_yields (s : LZXState) (slot : Nat) :
    Yields (matchOffset s slot) fun r =>
      r.2 = { s with R0 := r.2.R0, R1 := r.2.R1, R2 := r.2.R2 } := by
  refine Yields.ite (fun _ => ?_) fun _ => ?_
  · refine Yields.lift fun extra _ => ?_
    refine Yields.any.bind fun footer _ => ?_
    exact Yields.lift fun base _ => Yields.pure rfl
  · refine Yields.ite (fun _ => Yields.pure rfl) fun _ => ?_
    exact Yields.ite (fun _ => Yields.pure rfl) fun _ => Yields.pure rfl

theorem decompressElement_yields (s : LZXState) : Yields (decompressElement s) (Stepped s) := by
  refine Yields.any.bind fun main_element _ => ?_
  refine Yields.ite (fun _ => ?_) fun _ => ?_
  · refine Yields.lift fun w hw => Yields.pure ?_
    refine ⟨⟨rfl, ?_, Nat.le_add_right _ 1, putByte_touched hw⟩, ?_⟩
    · change ((s.window_posn + 1 : Nat) : Int) + (s.block_remaining - 1) = _
      omega
    · change s.block_remaining - 257 ≤ s.block_remaining - 1 ∧
        s.block_remaining - 1 < s.block_remaining
      omega
  · refine (matchLength_yields s _).bind fun n hn => ?_
    refine (matchOffset_yields s _).bind fun r hr => ?_
    obtain ⟨match_offset, s1⟩ := r
    obtain ⟨R0, R1, R2, rfl⟩ : ∃ R0 R1 R2, s1 = { s with R0, R1, R2 } := ⟨_, _, _, hr⟩
    intro b s' b' hrun
    change ((copyMatch _ match_offset n).bind fun a => some (a, b)) = _ at hrun
    obtain ⟨s2, hcopy, hs'⟩ := Option.bind_eq_some_iff.mp hrun
    obtain ⟨w, hw, hs2⟩ := Option.bind_eq_some_iff.mp hcopy
    have hwin := copyWindow_touched hw
    cases hs'
    cases hs2
    refine ⟨⟨rfl, ?_, Nat.le_add_right _ n, hwin⟩, ?_⟩
    · change ((s.window_posn + n : Nat) : Int) + (s.block_remaining - n) = _
      omega
    · change s.block_remaining - 257 ≤ s.block_remaining - n ∧
        s.block_remaining - n < s.block_remaining
      omega

theorem decompressRounds_yields {rounds : Nat} {s : LZXState}
    (hrounds : s.block_remaining ≤ rounds) :
    Yields (decompressRounds rounds s) fun s' =>
      Moved s s' ∧ s'.block_remaining ≤ 0 ∧ min s.block_remaining (-256) ≤ s'.block_remaining := by
  induction rounds generalizing s with
  | zero => exact Yields.pure ⟨Moved.refl s, hrounds, Int.min_le_left _ _⟩
  | succ rounds ih =>
    rw [decompressRounds]
    refine Yields.ite (fun h => ?_) fun h => Yields.pure ⟨Moved.refl s, by omega, Int.min_le_left _ _⟩
    refine (decompressElement_yields s).bind fun s1 hs1 => ?_
    have hless := hs1.less
    intro b s' b' hrun
    obtain ⟨hmoved, hend, hmin⟩ := ih (by omega) b s' b' hrun
    exact ⟨hs1.moved.trans hmoved, hend, by omega⟩

/-- Whatever stands in the data, a block is read to its end, and at most 256 bytes further; the
window keeps its size and what lies before the block and behind the last byte, and the trees stay. -/
theorem decompressBlock_frame (s : LZXState) :
    Yields (decompressBlock s) fun s' =>
      Moved s s' ∧ s'.block_remaining ≤ 0 ∧ min s.block_remaining (-256) ≤ s'.block_remaining :=
  decompressRounds_yields (Int.self_le_toNat _)

end AipcOs.LzxFrame
