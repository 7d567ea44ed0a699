import AipcOs.WordBits

/-! Memory with one word planted at a set of aligned addresses. -/
namespace AipcOs.WordPatch
open ByteMemory WordBits
open scoped Classical

def wordOf (x : Word) : Word := x &&& ~~~3

def byteOf (v x : Word) : Byte := v.extractLsb' (8 * (x &&& 3).toNat) 8

theorem wordOf_add_low (x : Word) : wordOf x + (x &&& 3) = x := by
  have hdisj : wordOf x &&& (x &&& 3) = 0#32 := by
    apply BitVec.eq_of_getLsbD_eq
    intro i hi
    simp only [wordOf, BitVec.getLsbD_and, BitVec.getLsbD_not]
    cases (3 : Word).getLsbD i <;> simp
  rw [BitVec.add_eq_or_of_and_eq_zero _ _ hdisj]
  apply BitVec.eq_of_getLsbD_eq
  intro i hi
  simp only [wordOf, BitVec.getLsbD_or, BitVec.getLsbD_and, BitVec.getLsbD_not]
  cases (3 : Word).getLsbD i <;> simp [hi]

theorem low_toNat (x : Word) : (x &&& 3).toNat = x.toNat % 4 := by
  rw [BitVec.toNat_and]
  exact Nat.and_two_pow_sub_one_eq_mod x.toNat 2

theorem wordOf_aligned (x : Word) : Aligned (wordOf x) := by
  apply BitVec.eq_of_getLsbD_eq
  intro i hi
  simp only [wordOf, BitVec.getLsbD_and, BitVec.getLsbD_not]
  cases (3 : Word).getLsbD i <;> simp

theorem wordOf_toNat (x : Word) : (wordOf x).toNat + x.toNat % 4 = x.toNat := by
  have hadd := congrArg BitVec.toNat (wordOf_add_low x)
  have hal := (aligned_iff _).1 (wordOf_aligned x)
  have hlt := (wordOf x).isLt
  rw [BitVec.toNat_add, low_toNat] at hadd
  omega

/-- The bytes of the word at `a` are the four from `a` on. -/
theorem wordOf_eq_iff (a x : Word) (ha : Aligned a) : wordOf x = a ↔ (x - a).toNat < 4 := by
  have hw := wordOf_toNat x
  have ha4 := (aligned_iff a).1 ha
  constructor
  · intro heq
    obtain rfl := heq
    bv_omega
  · intro h
    apply BitVec.eq_of_toNat_eq
    bv_omega

theorem sub_wordOf (x : Word) : (x - wordOf x).toNat = (x &&& 3).toNat := by
  have hw := wordOf_toNat x
  rw [low_toNat]
  bv_omega

theorem storeWord_apply (m : Mem) (a v x : Word) (ha : Aligned a) :
    storeWord m a v x = if wordOf x = a then byteOf v x else m x := by
  have hlen : (wordBytes v).length = 4 := rfl
  rw [storeWord, storeBytes_apply _ _ _ _ (by omega)]
  split
  · rename_i h
    subst h
    have hlow : (x &&& 3).toNat < 4 := by
      rw [low_toNat]
      omega
    rw [sub_wordOf, byteOf]
    interval_cases (x &&& 3).toNat <;> rfl
  · rename_i h
    rw [wordOf_eq_iff a x ha] at h
    rw [List.getElem?_eq_none (by omega)]
    rfl

theorem wordAt_byteOf (m : Mem) (x : Word) : byteOf (wordAt m (wordOf x)) x = m x := by
  have hlow : (x &&& 3).toNat < 4 := by
    rw [low_toNat]
    omega
  rw [byteOf, wordAt_byte m _ _ hlow, BitVec.ofNat_toNat, BitVec.setWidth_eq, wordOf_add_low]

noncomputable def patch (S : Set Word) (v : Word) (m : Mem) : Mem :=
  fun x => if wordOf x ∈ S then byteOf v x else m x

variable {S : Set Word} {a v : Word} {m : Mem}

theorem patch_remove (ha : Aligned a) :
    storeWord (patch S v m) a (wordAt m a) = patch (S \ {a}) v m := by
  funext x
  rw [storeWord_apply _ _ _ _ ha]
  by_cases h : wordOf x = a
  · subst h
    simp [patch, wordAt_byteOf]
  · simp [patch, h]

theorem wordOf_add (ha : Aligned a) (k : Nat) (hk : k < 4) : wordOf (a + BitVec.ofNat 32 k) = a := by
  rw [wordOf_eq_iff a _ ha]
  bv_omega

theorem wordAt_congr (m m' : Mem) (ha : Aligned a) (h : ∀ x, wordOf x = a → m x = m' x) :
    wordAt m a = wordAt m' a := by
  have h0 := h _ (wordOf_add ha 0 (by omega))
  have h1 : m (a + 1) = m' (a + 1) := h _ (wordOf_add ha 1 (by omega))
  have h2 : m (a + 2) = m' (a + 2) := h _ (wordOf_add ha 2 (by omega))
  have h3 : m (a + 3) = m' (a + 3) := h _ (wordOf_add ha 3 (by omega))
  rw [BitVec.add_zero] at h0
  rw [wordAt, wordAt, h0, h1, h2, h3]

/-- Stores that stay clear of the planted words. -/
theorem patch_storeBytes (bs : List Byte)
    (h : ∀ i < bs.length, wordOf (a + BitVec.ofNat 32 i) ∉ S) :
    storeBytes (patch S v m) a bs = patch S v (storeBytes m a bs) := by
  induction bs generalizing a m with
  | nil => rfl
  | cons b bs ih =>
    have hhead : wordOf a ∉ S := by
      have h0 := h 0 (Nat.zero_lt_succ _)
      rwa [BitVec.add_zero] at h0
    have hstore : store (patch S v m) a b = patch S v (store m a b) := by
      funext x
      by_cases hx : x = a
      · subst hx
        simp [store, patch, hhead]
      · simp [store, patch, hx]
    rw [storeBytes, storeBytes, hstore, ih]
    intro i hi
    rw [add_one_ofNat]
    exact h (i + 1) (Nat.succ_lt_succ hi)

/-- Stores elsewhere leave a word as it is. -/
theorem wordAt_storeBytes (bs : List Byte) (ha : Aligned a) (b : Word)
    (h : ∀ i < bs.length, wordOf (b + BitVec.ofNat 32 i) ≠ a) :
    wordAt (storeBytes m b bs) a = wordAt m a := by
  induction bs generalizing b m with
  | nil => rfl
  | cons c cs ih =>
    rw [storeBytes, ih]
    · apply wordAt_congr _ _ ha
      intro x hx
      have hne : x ≠ b := by
        intro heq
        obtain rfl := heq
        have h0 := h 0 (Nat.zero_lt_succ _)
        rw [BitVec.add_zero] at h0
        exact h0 hx
      simp [store, hne]
    · intro i hi
      rw [add_one_ofNat]
      exact h (i + 1) (Nat.succ_lt_succ hi)

end AipcOs.WordPatch
