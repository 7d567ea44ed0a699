import AipcOs.StructBytes
import AipcOs.WordPatch

/-! Windows of byte memory: what is unchanged outside one, and reading a run piece by piece. -/
namespace AipcOs.ByteFrames
open ByteMemory WordBits WordPatch StructBytes

def InWindow (base : Word) (size : Nat) (a : Word) (n : Nat) : Prop := (a - base).toNat + n ≤ size

def Frame (a : Word) (n : Nat) (m m' : Mem) : Prop := ∀ x : Word, n ≤ (x - a).toNat → m' x = m x

variable {a b v : Word} {n k : Nat} {m m' m'' : Mem} {bs : List Byte}

theorem Frame.refl : Frame a n m m := fun _ _ => rfl

theorem Frame.trans (h : Frame a n m m') (h' : Frame a n m' m'') : Frame a n m m'' :=
  fun x hx => (h' x hx).trans (h x hx)

theorem frame_storeBytes (h : bs.length ≤ 2 ^ 32) : Frame a bs.length m (storeBytes m a bs) := by
  intro x hx
  rw [storeBytes_apply m a x bs h, List.getElem?_eq_none hx]
  rfl

theorem add_ofNat_sub (hk : k < 2 ^ 32) : (a + BitVec.ofNat 32 k - a).toNat = k :=
  (add_ofNat_eq_iff a _ k hk).1 rfl

theorem add_ofNat_add : a + BitVec.ofNat 32 n + BitVec.ofNat 32 k = a + BitVec.ofNat 32 (n + k) := by
  rw [BitVec.add_assoc, BitVec.ofNat_add]

theorem aligned_add (ha : Aligned a) (hk : 4 ∣ k) : Aligned (a + BitVec.ofNat 32 k) := by
  rw [aligned_iff] at ha ⊢
  bv_omega

/-- A window inside another. -/
theorem Frame.widen {s : Nat} (h : Frame (a + BitVec.ofNat 32 k) n m m') (hk : k + n ≤ s)
    (hs : s ≤ 2 ^ 32) : Frame a s m m' := by
  intro x hx
  apply h x
  have hlt := (x - a).isLt
  bv_omega

theorem InWindow.widen {s l : Nat} (h : InWindow (a + BitVec.ofNat 32 k) n b l) (hk : k + n ≤ s)
    (hs : s < 2 ^ 32) : InWindow a s b l := by
  unfold InWindow at h ⊢
  bv_omega

theorem readBytes_add (m : Mem) (a : Word) (n k : Nat) :
    readBytes m a (n + k) = readBytes m a n ++ readBytes m (a + BitVec.ofNat 32 n) k := by
  induction n generalizing a with
  | zero => simp [readBytes]
  | succ n ih =>
    rw [Nat.add_right_comm, readBytes, ih, readBytes, List.cons_append, add_one_ofNat]

theorem readBytes_congr (h : ∀ i < n, m' (a + BitVec.ofNat 32 i) = m (a + BitVec.ofNat 32 i)) :
    readBytes m' a n = readBytes m a n := by
  induction n generalizing a with
  | zero => rfl
  | succ n ih =>
    have hhead := h 0 (Nat.zero_lt_succ n)
    rw [BitVec.add_zero] at hhead
    rw [readBytes, readBytes, hhead, ih]
    intro i hi
    rw [add_one_ofNat]
    exact h (i + 1) (Nat.succ_lt_succ hi)

/-- A change behind a run leaves it. -/
theorem Frame.readBytes_below (h : Frame (a + BitVec.ofNat 32 n) k m m') (hk : n + k ≤ 2 ^ 32) :
    readBytes m' a n = readBytes m a n := by
  apply readBytes_congr
  intro i hi
  apply h
  bv_omega

/-- A change in a window elsewhere leaves a run. -/
theorem Frame.readBytes_apart (h : Frame a n m m')
    (hapart : a.toNat + n ≤ b.toNat ∨ b.toNat + k ≤ a.toNat) (hb : b.toNat + k ≤ 2 ^ 32)
    (ha : a.toNat + n ≤ 2 ^ 32) : readBytes m' b k = readBytes m b k := by
  apply readBytes_congr
  intro i hi
  apply h
  bv_omega

/-- Copying a word copies its bytes. -/
theorem storeWord_wordAt (m : Mem) (a b x : Word) :
    storeWord m a (wordAt m b) x = if (x - a).toNat < 4 then m (b + (x - a)) else m x := by
  have hlen : (wordBytes (wordAt m b)).length = 4 := rfl
  rw [storeWord, storeBytes_apply _ _ _ _ (by omega)]
  split
  · rename_i hk
    have hbyte := wordAt_byte m b _ hk
    rw [BitVec.ofNat_toNat, BitVec.setWidth_eq] at hbyte
    rw [← hbyte]
    interval_cases (x - a).toNat <;> rfl
  · rw [List.getElem?_eq_none (by omega)]
    rfl

theorem storeWord_zero (m : Mem) (a x : Word) :
    storeWord m a 0 x = if (x - a).toNat < 4 then 0 else m x := by
  have hlen : (wordBytes 0).length = 4 := rfl
  rw [storeWord, storeBytes_apply _ _ _ _ (by omega)]
  split
  · interval_cases (x - a).toNat <;> rfl
  · rw [List.getElem?_eq_none (by omega)]
    rfl

theorem byteMask_getLsbD (k j : Nat) (hj : j < 32) :
    (0xFF#32 <<< (8 * k)).getLsbD j = decide (8 * k ≤ j ∧ j < 8 * k + 8) := by
  have hbyte (i : Nat) : (0xFF#32).getLsbD i = decide (i < 8) := by
    rw [BitVec.getLsbD_ofNat]
    have hmask : (255 : Nat) = 2 ^ 8 - 1 := rfl
    rw [hmask, Nat.testBit_two_pow_sub_one]
    grind
  rw [BitVec.getLsbD_shiftLeft, hbyte]
  grind

/-- A masked byte of a loaded word. -/
theorem wordAt_and_mask (m : Mem) (a : Word) {k : Nat} (hk : k < 4) :
    wordAt m a &&& (0xFF#32 <<< (8 * k)) = 0 ↔ m (a + BitVec.ofNat 32 k) = 0 := by
  rw [← wordAt_byte m a k hk]
  generalize wordAt m a = w
  constructor
  · intro h
    apply BitVec.eq_of_getLsbD_eq
    intro i hi
    have hbit := congrArg (fun v : Word => v.getLsbD (8 * k + i)) h
    have hin : 8 * k ≤ 8 * k + i ∧ 8 * k + i < 8 * k + 8 := by omega
    simpa [byteMask_getLsbD k (8 * k + i) (by omega), hin, hi] using hbit
  · intro h
    apply BitVec.eq_of_getLsbD_eq
    intro i hi
    rw [BitVec.getLsbD_and, byteMask_getLsbD k i hi]
    by_cases hin : 8 * k ≤ i ∧ i < 8 * k + 8
    · have hbit := congrArg (fun v : Byte => v.getLsbD (i - 8 * k)) h
      have hlt : i - 8 * k < 8 := by omega
      simpa [hlt, hin] using hbit
    · simp [hin]

theorem wordAt_storeWord (m : Mem) (a v : Word) : wordAt (storeWord m a v) a = v := by
  have hne (i j : Nat) (hi : i < 4) (hj : j < 4) (h : i ≠ j) :
      a + BitVec.ofNat 32 i ≠ a + BitVec.ofNat 32 j := by
    intro heq
    bv_omega
  have hread (k : Nat) (hk : k < 4) :
      storeWord m a v (a + BitVec.ofNat 32 k) = (wordBytes v).getD k 0 := by
    have hlen : (wordBytes v).length = 4 := rfl
    rw [storeWord, storeBytes_apply _ _ _ _ (by omega), add_ofNat_sub (by omega),
      List.getElem?_eq_getElem (by omega), List.getD_eq_getElem _ _ (by omega)]
    rfl
  have h0 : storeWord m a v a = v.extractLsb' 0 8 := by
    have h := hread 0 (by decide)
    rwa [BitVec.add_zero] at h
  have h1 : storeWord m a v (a + 1) = v.extractLsb' 8 8 := hread 1 (by decide)
  have h2 : storeWord m a v (a + 2) = v.extractLsb' 16 8 := hread 2 (by decide)
  have h3 : storeWord m a v (a + 3) = v.extractLsb' 24 8 := hread 3 (by decide)
  rw [wordAt, h0, h1, h2, h3]
  apply BitVec.eq_of_getLsbD_eq
  intro i hi
  simp only [BitVec.getLsbD_append]
  interval_cases i <;> simp

/-- The words of a table that is stored at `a`. -/
theorem wordAt_storeWords {ws : List Word} (ha : Aligned a) (hlen : 4 * ws.length ≤ 2 ^ 32)
    (hk : k < ws.length) :
    wordAt (storeBytes m a (ws.flatMap wordBytes)) (a + BitVec.ofNat 32 (4 * k)) = ws[k] := by
  induction ws generalizing m a k with
  | nil => exact absurd hk (Nat.not_lt_zero k)
  | cons w ws ih =>
    have hbytes : (ws.flatMap wordBytes).length = 4 * ws.length := by
      simp [List.length_flatMap, wordBytes, Nat.mul_comm]
    have hnext : Aligned (a + 4) := aligned_add ha (Nat.dvd_refl 4)
    rw [List.length_cons] at hlen
    rw [List.flatMap_cons, storeBytes_append]
    change wordAt (storeBytes (storeWord m a w) (a + 4) (ws.flatMap wordBytes)) _ = _
    cases k with
    | zero =>
      rw [Nat.mul_zero, BitVec.add_zero, wordAt_storeBytes _ ha, wordAt_storeWord,
        List.getElem_cons_zero]
      intro i hi heq
      rw [wordOf_eq_iff a _ ha] at heq
      bv_omega
    | succ k =>
      have hlt := Nat.lt_of_succ_lt_succ hk
      have hrest := ih (m := storeWord m a w) hnext (by omega) hlt
      have haddr : a + 4 + BitVec.ofNat 32 (4 * k) = a + BitVec.ofNat 32 (4 * (k + 1)) :=
        (add_ofNat_add (n := 4)).trans (congrArg (a + BitVec.ofNat 32 ·) (by omega))
      rw [← haddr, hrest, List.getElem_cons_succ]

theorem le_wordBytes (v : Word) : le (wordBytes v) = v.toNat := by
  have hlt := v.isLt
  simp only [le, wordBytes, List.map_cons, List.map_nil, Nat.ofDigits_cons, Nat.ofDigits_nil,
    BitVec.extractLsb'_toNat, Nat.shiftRight_eq_div_pow]
  omega

end AipcOs.ByteFrames
