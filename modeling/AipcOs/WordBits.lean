import AipcOs.ByteMemory

/-! Fields, masks and set bits of a 32-bit word: the vocabulary that relates a decoder written
with masks and shifts to one written with bit fields. -/
namespace AipcOs.WordBits
open ByteMemory

def field (w : Word) (lo n : Nat) : BitVec n := w.extractLsb' lo n

theorem and_eq_iff_bits (w m v : Word) :
    w &&& m = v ↔ ∀ i < 32, (w.getLsbD i && m.getLsbD i) = v.getLsbD i := by
  simp only [← BitVec.getLsbD_and]
  exact BitVec.eq_of_getLsbD_eq_iff

/-- Shift down and mask, the C spelling of a field. -/
theorem shiftRight_and (w : Word) (lo n : Nat) :
    w >>> lo &&& BitVec.ofNat 32 (2 ^ n - 1) = (field w lo n).setWidth 32 := by
  apply BitVec.eq_of_getLsbD_eq
  intro i hi
  have hm : (BitVec.ofNat 32 (2 ^ n - 1)).getLsbD i = decide (i < n) := by
    rw [BitVec.getLsbD_ofNat, Nat.testBit_two_pow_sub_one]
    simp [hi]
  rw [BitVec.getLsbD_and, hm, BitVec.getLsbD_ushiftRight, BitVec.getLsbD_setWidth, field,
    BitVec.getLsbD_extractLsb']
  by_cases hn : i < n <;> simp [hi, hn]

theorem and_low (w : Word) (n : Nat) :
    w &&& BitVec.ofNat 32 (2 ^ n - 1) = (field w 0 n).setWidth 32 := by
  have h := shiftRight_and w 0 n
  rwa [BitVec.ushiftRight_zero] at h

/-- The bits of `BIT(k)`. -/
theorem bit_getLsbD (k i : Nat) (hk : k < 32) : (1#32 <<< k).getLsbD i = decide (i = k) := by
  rw [BitVec.getLsbD_shiftLeft, BitVec.getLsbD_one]
  by_cases hik : i = k
  · subst hik
    simp [hk]
  · by_cases hlt : i < k
    · simp [hlt, hik]
    · have hne : i - k ≠ 0 := by omega
      simp [hik, hne]

theorem and_bit_ne_zero (w : Word) (k : Nat) (hk : k < 32) :
    w &&& (1#32 <<< k) ≠ 0 ↔ w.getLsbD k = true := by
  constructor
  · intro h
    by_contra hw
    apply h
    rw [and_eq_iff_bits]
    intro i hi
    rw [bit_getLsbD k i hk]
    by_cases hik : i = k
    · subst hik
      simp [hw]
    · simp [hik]
  · intro hw h
    rw [and_eq_iff_bits] at h
    have hk' := h k hk
    rw [bit_getLsbD k k hk] at hk'
    simp [hw] at hk'

theorem or_bit_getLsbD (w : Word) (k i : Nat) (hk : k < 32) :
    (w ||| 1#32 <<< k).getLsbD i = (w.getLsbD i || decide (i = k)) := by
  rw [BitVec.getLsbD_or, bit_getLsbD k i hk]

theorem clear_bit_getLsbD (w : Word) (k i : Nat) (hk : k < 32) :
    (w &&& ~~~(1#32 <<< k)).getLsbD i = (w.getLsbD i && decide (i ≠ k)) := by
  rw [BitVec.getLsbD_and, BitVec.getLsbD_not, bit_getLsbD k i hk]
  by_cases hi : i < 32
  · simp [hi]
  · rw [BitVec.getLsbD_of_ge w i (by omega)]
    simp

theorem setWidth_eq_iff {n : Nat} (hn : n ≤ 32) (a : BitVec n) (k : Nat) (hk : k < 2 ^ n) :
    a.setWidth 32 = BitVec.ofNat 32 k ↔ a = BitVec.ofNat n k := by
  have hp : 2 ^ n ≤ 2 ^ 32 := Nat.pow_le_pow_right (by decide) hn
  have ha := a.isLt
  constructor
  · intro h
    have ht := congrArg BitVec.toNat h
    rw [BitVec.toNat_setWidth, BitVec.toNat_ofNat, Nat.mod_eq_of_lt (by omega),
      Nat.mod_eq_of_lt (by omega)] at ht
    apply BitVec.eq_of_toNat_eq
    rw [ht, BitVec.toNat_ofNat, Nat.mod_eq_of_lt hk]
  · intro heq
    obtain rfl := heq
    apply BitVec.eq_of_toNat_eq
    rw [BitVec.toNat_setWidth, BitVec.toNat_ofNat, BitVec.toNat_ofNat, Nat.mod_eq_of_lt hk]

theorem toNat_setWidth_32 {n : Nat} (hn : n ≤ 32) (a : BitVec n) :
    (a.setWidth 32).toNat = a.toNat := by
  have hp : 2 ^ n ≤ 2 ^ 32 := Nat.pow_le_pow_right (by decide) hn
  have ha := a.isLt
  rw [BitVec.toNat_setWidth, Nat.mod_eq_of_lt (by omega)]

/-- A sum that stays below 2^32. -/
theorem add_toNat {a b : Word} {x y : Nat} (ha : a.toNat = x) (hb : b.toNat = y)
    (h : x + y < 2 ^ 32) : (a + b).toNat = x + y := by
  rw [BitVec.toNat_add, ha, hb, Nat.mod_eq_of_lt h]

theorem mul_toNat {a b : Word} {x y : Nat} (ha : a.toNat = x) (hb : b.toNat = y)
    (h : x * y < 2 ^ 32) : (a * b).toNat = x * y := by
  rw [BitVec.toNat_mul, ha, hb, Nat.mod_eq_of_lt h]

/-- Two fields that do not overlap. -/
theorem shift_or_toNat {hi lo : Word} {k : Nat} (hlo : lo.toNat < 2 ^ k)
    (hhi : hi.toNat * 2 ^ k < 2 ^ 32) : (hi <<< k ||| lo).toNat = hi.toNat * 2 ^ k + lo.toNat := by
  rw [BitVec.toNat_or, BitVec.toNat_shiftLeft, Nat.shiftLeft_eq, Nat.mod_eq_of_lt hhi,
    ← Nat.shiftLeft_eq, Nat.shiftLeft_add_eq_or_of_lt hlo]

theorem field_getLsbD (w : Word) (lo n i : Nat) (hi : i < n) :
    (field w lo n).getLsbD i = w.getLsbD (lo + i) := by
  simp [field, hi]

theorem aligned_mask (a : Word) (h : a &&& 3 = 0) : a &&& ~~~3 = a := by
  rw [and_eq_iff_bits] at h
  apply BitVec.eq_of_getLsbD_eq
  intro i hi
  have hb := h i hi
  have h3 : (3 : Word).getLsbD i = decide (i < 2) := by
    change (BitVec.ofNat 32 (2 ^ 2 - 1)).getLsbD i = _
    rw [BitVec.getLsbD_ofNat, Nat.testBit_two_pow_sub_one]
    simp [hi]
  rw [BitVec.getLsbD_and, BitVec.getLsbD_not, h3]
  rw [h3] at hb
  by_cases h2 : i < 2
  · simpa [h2] using hb
  · simp [h2, hi]

theorem load32_aligned (m : Mem) (a : Word) (h : a &&& 3 = 0) : load32 m a = wordAt m a := by
  rw [load32, aligned_mask a h, h]
  simp [BitVec.rotateRight_def]

theorem store32_aligned (m : Mem) (a v : Word) (h : a &&& 3 = 0) :
    store32 m a v = storeWord m a v := by
  rw [store32, aligned_mask a h]

def bitCount (v : Nat) : Nat :=
  if v = 0 then 0 else v % 2 + bitCount (v / 2)
termination_by v

theorem bitCount_zero : bitCount 0 = 0 := by
  rw [bitCount, if_pos rfl]

theorem bitCount_step (v : Nat) : bitCount v = v % 2 + bitCount (v / 2) := by
  by_cases h : v = 0
  · subst h
    simp [bitCount_zero]
  · rw [bitCount, if_neg h]

/-- `v & (v - 1)` clears exactly the lowest set bit. -/
theorem bitCount_and_pred (v : Nat) (hv : v ≠ 0) : bitCount (v &&& (v - 1)) + 1 = bitCount v := by
  induction v using Nat.strongRecOn with
  | ind v ih =>
    have hdiv : (v &&& (v - 1)) / 2 = v / 2 &&& (v - 1) / 2 := by
      simpa using Nat.and_div_two_pow (a := v) (b := v - 1) (n := 1)
    have hmod : (v &&& (v - 1)) % 2 = 0 := by
      have h := Nat.and_mod_two_pow (a := v) (b := v - 1) (n := 1)
      rw [Nat.pow_one] at h
      rw [h]
      rcases Nat.mod_two_eq_zero_or_one v with h0 | h1
      · rw [h0, Nat.zero_and]
      · have hpred : (v - 1) % 2 = 0 := by omega
        rw [hpred, Nat.and_zero]
    rw [bitCount_step (v &&& (v - 1)), hdiv, hmod, bitCount_step v]
    rcases Nat.mod_two_eq_zero_or_one v with h0 | h1
    · have hp : (v - 1) / 2 = v / 2 - 1 := by omega
      have hi := ih (v / 2) (by omega) (by omega)
      rw [hp]
      omega
    · have hp : (v - 1) / 2 = v / 2 := by omega
      rw [hp, Nat.and_self]
      omega

theorem bitCount_lt_two_pow (n v : Nat) (hv : v < 2 ^ n) : bitCount v ≤ n := by
  induction n generalizing v with
  | zero =>
    have h0 : v = 0 := by omega
    rw [h0, bitCount_zero]
  | succ n ih =>
    have hi := ih (v / 2) (by rw [Nat.pow_succ] at hv; omega)
    rw [bitCount_step]
    omega

theorem bitCount_eq_filter (n v : Nat) (hv : v < 2 ^ n) :
    bitCount v = ((List.range n).filter v.testBit).length := by
  induction n generalizing v with
  | zero =>
    have h0 : v = 0 := by omega
    simp [h0, bitCount_zero]
  | succ n ih =>
    have hi := ih (v / 2) (by rw [Nat.pow_succ] at hv; omega)
    have hs : v.testBit ∘ Nat.succ = (v / 2).testBit := by
      funext i
      simp [Function.comp, Nat.testBit_succ]
    rw [bitCount_step, hi, List.range_succ_eq_map, List.filter_cons, List.filter_map, hs]
    rcases Nat.mod_two_eq_zero_or_one v with h0 | h1
    · simp [Nat.testBit_zero, h0]
    · simp [Nat.testBit_zero, h1]
      omega

def ffs (w : Word) : Nat := ((List.range 32).find? w.getLsbD).getD 0

theorem ffs_spec (w : Word) (hw : w ≠ 0) : ffs w < 32 ∧ w.getLsbD (ffs w) = true := by
  rw [ffs]
  cases hf : (List.range 32).find? w.getLsbD with
  | none =>
    exfalso
    apply hw
    apply BitVec.eq_of_getLsbD_eq
    intro i hi
    have hno := List.find?_eq_none.mp hf i (List.mem_range.mpr hi)
    simpa using hno
  | some b => exact ⟨List.mem_range.mp (List.mem_of_find?_eq_some hf), List.find?_some hf⟩

theorem clear_ffs_lt (w : Word) (hw : w ≠ 0) : (w &&& ~~~(1#32 <<< ffs w)).toNat < w.toNat := by
  obtain ⟨hlt, hset⟩ := ffs_spec w hw
  have hle : (w &&& ~~~(1#32 <<< ffs w)).toNat ≤ w.toNat := by
    rw [BitVec.toNat_and]
    exact Nat.and_le_left
  refine lt_of_le_of_ne hle fun he => ?_
  have hcleared := clear_bit_getLsbD w (ffs w) (ffs w) hlt
  rw [BitVec.eq_of_toNat_eq he, hset] at hcleared
  simp at hcleared

/-- The set bits of a word, found and cleared one after another from the bottom. -/
def scanBits (w : Word) : List Nat :=
  if w = 0 then []
  else ffs w :: scanBits (w &&& ~~~(1#32 <<< ffs w))
termination_by w.toNat
decreasing_by exact clear_ffs_lt w ‹_›

theorem mem_scanBits (w : Word) (i : Nat) : i ∈ scanBits w ↔ w.getLsbD i = true := by
  fun_induction scanBits w with
  | case1 => simp
  | case2 w hw ih =>
    obtain ⟨hlt, hset⟩ := ffs_spec w hw
    rw [List.mem_cons, ih, clear_bit_getLsbD w (ffs w) i hlt]
    by_cases hi : i = ffs w
    · subst hi
      simp [hset]
    · simp [hi]

theorem scanBits_lt {w : Word} {i : Nat} (h : i ∈ scanBits w) : i < 32 := by
  rw [mem_scanBits] at h
  exact BitVec.lt_of_getLsbD h

theorem scanBits_nodup (w : Word) : (scanBits w).Nodup := by
  fun_induction scanBits w with
  | case1 => exact List.nodup_nil
  | case2 w hw ih =>
    refine List.nodup_cons.mpr ⟨?_, ih⟩
    rw [mem_scanBits, clear_bit_getLsbD w _ _ (ffs_spec w hw).1]
    simp

end AipcOs.WordBits
