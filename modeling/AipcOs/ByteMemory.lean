import Mathlib

/-! Byte-addressed memory of a 32-bit little-endian machine. Addresses wrap at 2^32. -/
namespace AipcOs.ByteMemory

abbrev Byte := BitVec 8
abbrev Word := BitVec 32
abbrev Mem := Word → Byte

/-- Membership in a list of bytes is decided by one instance in every module. -/
instance : LawfulBEq Byte := inferInstance

def store (m : Mem) (a : Word) (b : Byte) : Mem := Function.update m a b

def storeBytes (m : Mem) (a : Word) : List Byte → Mem
  | [] => m
  | b :: bs => storeBytes (store m a b) (a + 1) bs

def readBytes (m : Mem) (a : Word) : Nat → List Byte
  | 0 => []
  | n + 1 => m a :: readBytes m (a + 1) n

def wordAt (m : Mem) (a : Word) : Word := m (a + 3) ++ m (a + 2) ++ m (a + 1) ++ m a

def wordBytes (v : Word) : List Byte :=
  [v.extractLsb' 0 8, v.extractLsb' 8 8, v.extractLsb' 16 8, v.extractLsb' 24 8]

def leWord (b0 b1 b2 b3 : Byte) : Word :=
  b0.setWidth 32 ||| (b1.setWidth 32 <<< 8) ||| (b2.setWidth 32 <<< 16) ||| (b3.setWidth 32 <<< 24)

def storeWord (m : Mem) (a v : Word) : Mem := storeBytes m a (wordBytes v)

/-- A word load before ARMv6: the aligned word, rotated by the low address bits. -/
def load32 (m : Mem) (a : Word) : Word :=
  (wordAt m (a &&& ~~~3)).rotateRight (8 * (a &&& 3).toNat)

/-- A word store ignores the low address bits. -/
def store32 (m : Mem) (a v : Word) : Mem := storeWord m (a &&& ~~~3) v

def Aligned (a : Word) : Prop := a &&& 3 = 0

instance (a : Word) : Decidable (Aligned a) := by unfold Aligned; infer_instance

theorem aligned_iff (a : Word) : Aligned a ↔ a.toNat % 4 = 0 := by
  have h : (a &&& 3#32).toNat = a.toNat % 4 := by
    rw [BitVec.toNat_and]
    exact Nat.and_two_pow_sub_one_eq_mod a.toNat 2
  constructor
  · intro ha
    have hzero : a &&& 3#32 = 0 := ha
    rw [← h, hzero]
    rfl
  · intro ha
    apply BitVec.eq_of_toNat_eq
    change (a &&& 3#32).toNat = 0
    rw [h, ha]

theorem toNat_pos {a : Word} (h : a ≠ 0) : 0 < a.toNat :=
  Nat.pos_of_ne_zero fun hzero => h (BitVec.eq_of_toNat_eq hzero)

/-- Position of `x` in a run that starts at `a`, counted mod 2^32. -/
theorem add_ofNat_eq_iff (a x : Word) (i : Nat) (hi : i < 2 ^ 32) :
    x = a + BitVec.ofNat 32 i ↔ (x - a).toNat = i := by
  constructor
  · intro heq
    obtain rfl := heq
    rw [BitVec.add_comm, BitVec.add_sub_cancel, BitVec.toNat_ofNat, Nat.mod_eq_of_lt hi]
  · intro h
    have hx : x - a = BitVec.ofNat 32 i := by
      apply BitVec.eq_of_toNat_eq
      rw [h, BitVec.toNat_ofNat, Nat.mod_eq_of_lt hi]
    rw [← hx, BitVec.add_comm, BitVec.sub_add_cancel]

theorem add_one_ofNat (a : Word) (i : Nat) :
    a + 1 + BitVec.ofNat 32 i = a + BitVec.ofNat 32 (i + 1) := by
  bv_omega

theorem storeBytes_append (m : Mem) (a : Word) (xs ys : List Byte) :
    storeBytes m a (xs ++ ys) =
      storeBytes (storeBytes m a xs) (a + BitVec.ofNat 32 xs.length) ys := by
  induction xs generalizing m a with
  | nil => simp [storeBytes]
  | cons x xs ih =>
    simp only [List.cons_append, storeBytes, List.length_cons, ih, add_one_ofNat]

theorem sub_succ_toNat (x a : Word) (h : x ≠ a) : (x - (a + 1)).toNat + 1 = (x - a).toNat := by
  have hne : (x - a).toNat ≠ 0 := by
    intro h0
    apply h
    have := (add_ofNat_eq_iff a x 0 (by decide)).2 h0
    simpa using this
  bv_omega

/-- The whole effect of a run of byte stores that does not lap itself. -/
theorem storeBytes_apply (m : Mem) (a x : Word) (bs : List Byte) (h : bs.length ≤ 2 ^ 32) :
    storeBytes m a bs x = (bs[(x - a).toNat]?).getD (m x) := by
  induction bs generalizing m a with
  | nil => simp [storeBytes]
  | cons b bs ih =>
    have hl : bs.length + 1 ≤ 2 ^ 32 := by simpa using h
    rw [storeBytes, ih _ _ (by omega)]
    by_cases hx : x = a
    · subst hx
      have hz : (x - (x + 1)).toNat = 2 ^ 32 - 1 := by bv_omega
      rw [hz, BitVec.sub_self, List.getElem?_eq_none (by omega)]
      simp [store]
    · rw [← sub_succ_toNat x a hx, List.getElem?_cons_succ]
      simp [store, hx]

/-- A run that ends inside the address space, by address. -/
theorem storeBytes_range (m : Mem) (a x : Word) (bs : List Byte) (h : a.toNat + bs.length ≤ 2 ^ 32) :
    storeBytes m a bs x =
      if a.toNat ≤ x.toNat ∧ x.toNat < a.toNat + bs.length then bs.getD (x.toNat - a.toNat) 0
      else m x := by
  rw [storeBytes_apply m a x bs (by omega)]
  by_cases hx : a.toNat ≤ x.toNat ∧ x.toNat < a.toNat + bs.length
  · have hoff : (x - a).toNat = x.toNat - a.toNat := by bv_omega
    rw [if_pos hx, hoff, List.getElem?_eq_getElem (by omega), List.getD_eq_getElem _ _ (by omega)]
    rfl
  · have hoff : bs.length ≤ (x - a).toNat := by
      have hxlt := x.isLt
      bv_omega
    rw [if_neg hx, List.getElem?_eq_none hoff]
    rfl

theorem wordBytes_leWord (b0 b1 b2 b3 : Byte) :
    wordBytes (leWord b0 b1 b2 b3) = [b0, b1, b2, b3] := by
  simp only [wordBytes, List.cons.injEq, and_true]
  refine ⟨?_, ?_, ?_, ?_⟩ <;>
  · apply BitVec.eq_of_getLsbD_eq
    intro i hi
    interval_cases i <;> simp [leWord]

theorem leWord_extract (v : Word) :
    leWord (v.extractLsb' 0 8) (v.extractLsb' 8 8) (v.extractLsb' 16 8) (v.extractLsb' 24 8) =
      v := by
  apply BitVec.eq_of_getLsbD_eq
  intro i hi
  interval_cases i <;> simp [leWord]

theorem wordAt_byte (m : Mem) (a : Word) (k : Nat) (hk : k < 4) :
    (wordAt m a).extractLsb' (8 * k) 8 = m (a + BitVec.ofNat 32 k) := by
  apply BitVec.eq_of_getLsbD_eq
  intro i hi
  rw [BitVec.getLsbD_extractLsb', wordAt]
  simp only [BitVec.getLsbD_append]
  interval_cases k <;> interval_cases i <;> simp

theorem readBytes_length (m : Mem) (a : Word) (n : Nat) : (readBytes m a n).length = n := by
  induction n generalizing a with
  | zero => rfl
  | succ n ih => simp [readBytes, ih]

theorem readBytes_getElem? (m : Mem) (a : Word) (n i : Nat) (hi : i < n) :
    (readBytes m a n)[i]? = some (m (a + BitVec.ofNat 32 i)) := by
  induction n generalizing a i with
  | zero => omega
  | succ n ih =>
    cases i with
    | zero => simp [readBytes]
    | succ i =>
      rw [readBytes, List.getElem?_cons_succ, ih (a + 1) i (by omega), add_one_ofNat]

/-- Reading back a stored run, also across the top of the address space. -/
theorem readBytes_storeBytes (m : Mem) (a : Word) (bs : List Byte) (h : bs.length ≤ 2 ^ 32) :
    readBytes (storeBytes m a bs) a bs.length = bs := by
  apply List.ext_getElem?
  intro i
  by_cases hi : i < bs.length
  · rw [readBytes_getElem? _ _ _ _ hi, storeBytes_apply _ _ _ _ h,
      (add_ofNat_eq_iff a _ i (by omega)).1 rfl, List.getElem?_eq_getElem hi]
    rfl
  · have hl := readBytes_length (storeBytes m a bs) a bs.length
    rw [List.getElem?_eq_none (by omega), List.getElem?_eq_none (by omega)]

end AipcOs.ByteMemory
