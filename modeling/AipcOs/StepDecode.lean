import AipcOs.Armv5
import AipcOs.Step

/-! The masks, shifts and helpers of arm_next_pc in the terms of the architecture: each test of
the source is a condition on instruction bits, each helper a value that the core defines. -/
namespace AipcOs.StepDecode
open ByteMemory WordBits Armv5 Step

/-- The stub's register file as the core's. The stub has no SPSR of its own. -/
def core (g : ArmRegs) (spsr : Option Word) (m : Mem) : Core where
  r := fun i => if h : i.val < 13 then g.r ⟨i.val, h⟩ else if i.val = 13 then g.sp else g.lr
  pc := g.pc
  cpsr := g.cpsr
  spsr := spsr
  mem := m

variable (g : ArmRegs) (spsr : Option Word) (m : Mem)

@[simp] theorem core_pc : (core g spsr m).pc = g.pc := rfl
@[simp] theorem core_mem : (core g spsr m).mem = m := rfl
@[simp] theorem core_spsr : (core g spsr m).spsr = spsr := rfl

theorem reg_eq (n : Reg) : reg g (n.setWidth 32) = (core g spsr m).reg n := by
  have h15 : n.setWidth 32 = (15 : Word) ↔ n = 15 := setWidth_eq_iff (by decide) n 15 (by decide)
  have h14 : n.setWidth 32 = (14 : Word) ↔ n = 14 := setWidth_eq_iff (by decide) n 14 (by decide)
  have h13 : n.setWidth 32 = (13 : Word) ↔ n = 13 := setWidth_eq_iff (by decide) n 13 (by decide)
  have hne (k : Nat) (hk : k < 16) (h : n ≠ BitVec.ofNat 4 k) : n.toNat ≠ k := by
    intro he
    apply h
    apply BitVec.eq_of_toNat_eq
    rw [he, BitVec.toNat_ofNat, Nat.mod_eq_of_lt hk]
  have hl := n.isLt
  simp only [reg, Core.reg, core, h15, h14, h13]
  by_cases e15 : n = 15
  · rw [if_pos e15, dif_neg (by simp [e15])]
  · have n15 := hne 15 (by decide) e15
    rw [if_neg e15, dif_pos (by omega)]
    by_cases e14 : n = 14
    · simp [e14]
    · have n14 := hne 14 (by decide) e14
      rw [if_neg e14]
      by_cases e13 : n = 13
      · simp [e13]
      · have n13 := hne 13 (by decide) e13
        have hlt : n.toNat < 13 := by omega
        rw [if_neg e13, dif_pos hlt]
        congr 1
        apply Fin.ext
        simp only [Fin.ofNat]
        rw [toNat_setWidth_32 (by decide), Nat.mod_eq_of_lt hlt]

theorem flag_word (x : Word) (k : Nat) : (x >>> k) &&& 1 = if x.getLsbD k then 1 else 0 := by
  have h := shiftRight_and x k 1
  have hb : (field x k 1).getLsbD 0 = x.getLsbD k := field_getLsbD x k 1 0 (by decide)
  rw [show (1 : Word) = BitVec.ofNat 32 (2 ^ 1 - 1) from rfl, h, ← hb]
  generalize field x k 1 = b
  revert b
  decide

theorem top_field (w : Word) : w >>> 28 = (field w 28 4).setWidth 32 := by
  rw [← shiftRight_and]
  apply BitVec.eq_of_getLsbD_eq
  intro i hi
  rw [BitVec.getLsbD_and, BitVec.getLsbD_ofNat, Nat.testBit_two_pow_sub_one,
    BitVec.getLsbD_ushiftRight]
  by_cases h4 : i < 4
  · simp [hi, h4]
  · rw [BitVec.getLsbD_of_ge _ _ (by omega)]
    rfl

theorem condTrue_eq (cond : BitVec 4) :
    condTrue (cond.setWidth 32) g.cpsr = (core g spsr m).condPassed cond := by
  simp only [condTrue, Core.condPassed, Core.flagN, Core.flagZ, Core.flagC, Core.flagV,
    flag_word, toNat_setWidth_32 (by decide : 4 ≤ 32), core]
  have hl := cond.isLt
  generalize g.cpsr.getLsbD 31 = n
  generalize g.cpsr.getLsbD 30 = z
  generalize g.cpsr.getLsbD 29 = c
  generalize g.cpsr.getLsbD 28 = v
  interval_cases cond.toNat <;> revert n z c v <;> decide

theorem alu_eq (op : BitVec 4) (a b : Word) (carry : Bool)
    (h : (AluOp.ofBits op).isTest = false) :
    alu (op.setWidth 32) a b (if carry then 1 else 0) = (AluOp.ofBits op).result a b carry := by
  have hl := op.isLt
  simp only [alu, AluOp.ofBits, toNat_setWidth_32 (by decide : 4 ≤ 32)] at h ⊢
  interval_cases op.toNat <;> cases carry <;> simp_all [AluOp.result, AluOp.isTest]

theorem isTest_iff (op : BitVec 4) :
    (AluOp.ofBits op).isTest = true ↔ 0x8 ≤ op.toNat ∧ op.toNat ≤ 0xB := by
  have hl := op.isLt
  simp only [AluOp.ofBits]
  interval_cases op.toNat <;> simp [AluOp.isTest]

/-- Rotation written with two shifts. -/
theorem rotate_shifts (x : Word) (n : Nat) (hn : n < 32) :
    (x >>> n) ||| (x <<< (32 - n)) = x.rotateRight n := by
  rw [BitVec.rotateRight_def, Nat.mod_eq_of_lt hn]

theorem shifted_eq (x : Word) (t : BitVec 2) (n : BitVec 5) (carry : Bool) :
    shifted x (t.setWidth 32) (n.setWidth 32) (if carry then 1 else 0) =
      (ShiftType.ofBits t).byImm x n carry := by
  have hn := n.isLt
  have ht := t.isLt
  have hz : n.setWidth 32 = 0 ↔ n = 0 := setWidth_eq_iff (by decide) n 0 (by decide)
  have hmask : n.setWidth 32 &&& 31 = n.setWidth 32 := by
    rw [show (31 : Word) = BitVec.ofNat 32 (2 ^ 5 - 1) from rfl, and_low]
    congr 1
    apply BitVec.eq_of_getLsbD_eq
    intro i hi
    rw [field_getLsbD _ _ _ _ hi]
    simp [show i < 32 by omega]
  simp only [shifted, ShiftType.ofBits, ShiftType.byImm, hmask, hz,
    toNat_setWidth_32 (by decide : 2 ≤ 32), toNat_setWidth_32 (by decide : 5 ≤ 32)]
  have hlt : ¬ 32 ≤ n.toNat := by omega
  interval_cases t.toNat
  · simp [hlt]
  · simp [hlt]
  · have hsign : x &&& 0x80000000 ≠ 0 ↔ x.msb = true := by
      rw [BitVec.msb_eq_getLsbD_last]
      exact and_bit_ne_zero x 31 (by decide)
    by_cases hn0 : n = 0
    · by_cases hm : x.msb = true
      · simp only [hn0, hsign, hm]
        rfl
      · simp only [hn0, hsign, hm]
        rfl
    · simp only [hn0, hlt, or_self, if_false]
  · by_cases hn0 : n = 0
    · cases carry <;> simp [hn0]
    · simp only [hn0, if_false]
      exact rotate_shifts x n.toNat (by omega)

theorem operand2_imm (w : Word) (h : w.getLsbD 25 = true) :
    operand2 g w g.cpsr = (core g spsr m).shifter (.imm (field w 8 4) (field w 0 8)) := by
  have hb := (and_bit_ne_zero w 25 (by decide)).2 h
  have hrot : w >>> 8 &&& 0xF = (field w 8 4).setWidth 32 := shiftRight_and w 8 4
  have himm : w &&& 0xFF = (field w 0 8).setWidth 32 := and_low w 8
  have hl := (field w 8 4).isLt
  simp only [operand2, if_pos hb, hrot, himm, Core.shifter]
  have htwo : ((field w 8 4).setWidth 32 * 2).toNat = 2 * (field w 8 4).toNat := by
    rw [BitVec.toNat_mul, toNat_setWidth_32 (by decide)]
    change _ * 2 % 2 ^ 32 = _
    omega
  rw [htwo]
  by_cases hz : (field w 8 4).toNat = 0
  · have h0 : (field w 8 4).setWidth 32 * 2 = 0 := by
      apply BitVec.eq_of_toNat_eq
      rw [htwo, hz]
      rfl
    rw [if_neg (not_not_intro h0), hz, BitVec.rotateRight_def]
    simp
  · have hne : (field w 8 4).setWidth 32 * 2 ≠ 0 := by
      intro h0
      have := congrArg BitVec.toNat h0
      rw [htwo] at this
      change _ = 0 at this
      omega
    rw [if_pos hne]
    exact rotate_shifts _ _ (by omega)

theorem operand2_shift (w : Word) (h25 : w.getLsbD 25 = false) (h4 : w.getLsbD 4 = false) :
    operand2 g w g.cpsr = (core g spsr m).shifter
      (.shiftImm (field w 0 4) (ShiftType.ofBits (field w 5 2)) (field w 7 5)) := by
  have hb : ¬ w &&& (1#32 <<< 25) ≠ 0 := by
    rw [and_bit_ne_zero w 25 (by decide), h25]
    decide
  have hs : ¬ w &&& (1#32 <<< 4) ≠ 0 := by
    rw [and_bit_ne_zero w 4 (by decide), h4]
    decide
  have hrm : w &&& 0xF = (field w 0 4).setWidth 32 := and_low w 4
  have ht : w >>> 5 &&& 3 = (field w 5 2).setWidth 32 := shiftRight_and w 5 2
  have hn : w >>> 7 &&& 0x1F = (field w 7 5).setWidth 32 := shiftRight_and w 7 5
  simp only [operand2, if_neg hb, if_neg hs, hrm, ht, hn, reg_eq g spsr m, flag_word, shifted_eq]
  rfl

theorem popcountLoop_eq (fuel : Nat) (v n : Word) (h : bitCount v.toNat ≤ fuel) :
    popcountLoop fuel v n = n + BitVec.ofNat 32 (bitCount v.toNat) := by
  induction fuel generalizing v n with
  | zero =>
    have h0 : bitCount v.toNat = 0 := by omega
    simp [popcountLoop, h0]
  | succ fuel ih =>
    by_cases hv : v = 0
    · subst hv
      simp [popcountLoop, bitCount_zero]
    · have hne : v.toNat ≠ 0 := (toNat_pos hv).ne'
      have hand : (v &&& (v - 1)).toNat = v.toNat &&& (v.toNat - 1) := by
        rw [BitVec.toNat_and]
        congr 1
        bv_omega
      have hc := bitCount_and_pred v.toNat hne
      rw [popcountLoop, if_neg hv, ih _ _ (by rw [hand]; omega), hand, ← hc, BitVec.ofNat_add]
      bv_omega

theorem popcount_eq (v : Word) : popcount v = BitVec.ofNat 32 (bitCount v.toNat) := by
  have h := bitCount_lt_two_pow 32 v.toNat v.isLt
  rw [popcount, popcountLoop_eq 32 v 0 h]
  simp

theorem popcount_list (list : BitVec 16) :
    popcount (list.setWidth 32) = BitVec.ofNat 32 (listSize list) := by
  rw [popcount_eq, toNat_setWidth_32 (by decide), bitCount_eq_filter 16 _ list.isLt]
  rfl

theorem listSize_pos (list : BitVec 16) (h : list.getLsbD 15 = true) : 0 < listSize list := by
  apply List.length_pos_of_mem (a := 15)
  simp [h]

theorem forall_bits (P : Nat → Prop) : (∀ i < 32, P i) ↔
    ((P 0 ∧ P 1 ∧ P 2 ∧ P 3 ∧ P 4 ∧ P 5 ∧ P 6 ∧ P 7) ∧
     (P 8 ∧ P 9 ∧ P 10 ∧ P 11 ∧ P 12 ∧ P 13 ∧ P 14 ∧ P 15)) ∧
    ((P 16 ∧ P 17 ∧ P 18 ∧ P 19 ∧ P 20 ∧ P 21 ∧ P 22 ∧ P 23) ∧
     (P 24 ∧ P 25 ∧ P 26 ∧ P 27 ∧ P 28 ∧ P 29 ∧ P 30 ∧ P 31)) := by
  simp only [Nat.forall_lt_succ_right, Nat.not_lt_zero, false_implies, implies_true, true_and,
    and_assoc]

theorem mask_branch (w : Word) : w &&& 0x0E000000 = 0x0A000000 ↔
    w.getLsbD 27 = true ∧ w.getLsbD 26 = false ∧ w.getLsbD 25 = true := by
  rw [and_eq_iff_bits, forall_bits]
  simp
  tauto

theorem mask_load (w : Word) : w &&& 0x0C100000 = 0x04100000 ↔
    w.getLsbD 27 = false ∧ w.getLsbD 26 = true ∧ w.getLsbD 20 = true := by
  rw [and_eq_iff_bits, forall_bits]
  simp
  tauto

theorem mask_block (w : Word) : w &&& 0x0E100000 = 0x08100000 ↔
    w.getLsbD 27 = true ∧ w.getLsbD 26 = false ∧ w.getLsbD 25 = false ∧ w.getLsbD 20 = true := by
  rw [and_eq_iff_bits, forall_bits]
  simp
  tauto

theorem mask_alu (w : Word) : w &&& 0x0C000000 = 0 ↔
    w.getLsbD 27 = false ∧ w.getLsbD 26 = false := by
  rw [and_eq_iff_bits, forall_bits]
  simp
  tauto

theorem field_ones (w : Word) : field w 8 12 = BitVec.allOnes 12 ↔
    ∀ i < 12, w.getLsbD (8 + i) = true := by
  rw [BitVec.eq_of_getLsbD_eq_iff]
  constructor
  · intro h i hi
    rw [← field_getLsbD w 8 12 i hi, h i hi, BitVec.getLsbD_allOnes]
    simpa using hi
  · intro h i hi
    rw [field_getLsbD w 8 12 i hi, h i hi, BitVec.getLsbD_allOnes]
    simpa using hi

/-- BX and BLX: the miscellaneous class with opcode 01, all should-be-one bits set, and 0001 or
0011 in bits 7:4. -/
theorem mask_exchange (w : Word) : w &&& 0x0FFFFFD0 = 0x012FFF10 ↔
    (w.getLsbD 27 = false ∧ w.getLsbD 26 = false ∧ w.getLsbD 25 = false) ∧
    isMisc w = true ∧ field w 21 2 = 1 ∧ field w 8 12 = BitVec.allOnes 12 ∧
    w.getLsbD 7 = false ∧ w.getLsbD 6 = false ∧ w.getLsbD 4 = true := by
  have hop : field w 21 2 = 1 ↔ w.getLsbD 21 = true ∧ w.getLsbD 22 = false := by
    rw [BitVec.eq_of_getLsbD_eq_iff]
    simp only [Nat.forall_lt_succ_right, Nat.not_lt_zero, false_implies, implies_true, true_and,
      field_getLsbD w 21 2 0 (by decide), field_getLsbD w 21 2 1 (by decide)]
    rfl
  rw [and_eq_iff_bits, field_ones, hop, isMisc, forall_bits]
  simp only [Nat.forall_lt_succ_right, Nat.not_lt_zero, false_implies, implies_true, true_and]
  simp
  tauto

theorem branch_offset (w : Word) :
    (w <<< 8).sshiftRight 6 = (field w 0 24).signExtend 32 <<< 2 := by
  apply BitVec.eq_of_getLsbD_eq
  intro i hi
  have hm : (field w 0 24).msb = w.getLsbD 23 := by
    rw [BitVec.msb_eq_getLsbD_last, field_getLsbD _ _ _ _ (by decide)]
  have hmw : (w <<< 8).msb = w.getLsbD 23 := by
    rw [BitVec.msb_eq_getLsbD_last, BitVec.getLsbD_shiftLeft]
    simp
  rw [BitVec.getLsbD_sshiftRight, BitVec.getLsbD_shiftLeft, BitVec.getLsbD_shiftLeft,
    BitVec.getLsbD_signExtend, hm, hmw]
  by_cases h2 : i < 2
  · simp [h2, hi, show 6 + i < 32 by omega, show 6 + i < 8 by omega]
  · by_cases h26 : i < 26
    · rw [field_getLsbD _ _ _ _ (by omega)]
      simp [h2, hi, show 6 + i < 32 by omega, show ¬ 6 + i < 8 by omega, show i - 2 < 24 by omega,
        show 0 + (i - 2) = 6 + i - 8 by omega, show i - 2 < 32 by omega]
    · simp [h2, hi, show ¬ 6 + i < 32 by omega, show ¬ i - 2 < 24 by omega,
        show i - 2 < 32 by omega, show ¬ 32 ≤ i by omega]

theorem bit_clear (w : Word) (k : Nat) (hk : k < 32) (h : w.getLsbD k = false) :
    ¬ w &&& (1#32 <<< k) ≠ 0 := by
  rw [and_bit_ne_zero w k hk, h]
  decide

theorem dest_pc (w : Word) : w >>> 12 &&& 0xF = 15 ↔ field w 12 4 = 15 := by
  have h : w >>> 12 &&& 0xF = (field w 12 4).setWidth 32 := shiftRight_and w 12 4
  rw [h]
  exact setWidth_eq_iff (by decide) _ 15 (by decide)

theorem armTarget_branch (w : Word) (h27 : w.getLsbD 27 = true) (h26 : w.getLsbD 26 = false)
    (h25 : w.getLsbD 25 = true) :
    armTarget g m w = some (branchTarget g.pc (field w 0 24)) := by
  rw [armTarget, if_pos ((mask_branch w).2 ⟨h27, h26, h25⟩), branch_offset]
  rfl

def offsetOf (w : Word) : Offset :=
  if w.getLsbD 25 then .scaled (field w 0 4) (ShiftType.ofBits (field w 5 2)) (field w 7 5)
  else .imm (field w 0 12)

theorem armTarget_load (w : Word) (h27 : w.getLsbD 27 = false) (h26 : w.getLsbD 26 = true) :
    armTarget g m w =
      if w.getLsbD 20 = true ∧ field w 12 4 = 15 then
        some (load32 m ((core g spsr m).address (w.getLsbD 24) (w.getLsbD 23) (field w 16 4)
          (offsetOf w)) &&& ~~~3)
      else some (g.pc + 4) := by
  have hrn : w >>> 16 &&& 0xF = (field w 16 4).setWidth 32 := shiftRight_and w 16 4
  have hrm : w &&& 0xF = (field w 0 4).setWidth 32 := and_low w 4
  have ht : w >>> 5 &&& 3 = (field w 5 2).setWidth 32 := shiftRight_and w 5 2
  have hn : w >>> 7 &&& 0x1F = (field w 7 5).setWidth 32 := shiftRight_and w 7 5
  have himm : w &&& 0xFFF = (field w 0 12).setWidth 32 := and_low w 12
  have hoff : (if w &&& (1#32 <<< 25) ≠ 0 then
        shifted (reg g (w &&& 0xF)) (w >>> 5 &&& 3) (w >>> 7 &&& 0x1F) (g.cpsr >>> 29 &&& 1)
      else w &&& 0xFFF) = (core g spsr m).offset (offsetOf w) := by
    rw [offsetOf]
    by_cases h25 : w.getLsbD 25 = true
    · rw [if_pos ((and_bit_ne_zero w 25 (by decide)).2 h25), if_pos h25, hrm, ht, hn,
        reg_eq g spsr m, flag_word, shifted_eq]
      rfl
    · rw [if_neg (bit_clear w 25 (by decide) (by simpa using h25)), if_neg h25, himm]
      rfl
  simp only [armTarget, mask_branch, mask_exchange, mask_load, mask_block, mask_alu, dest_pc, h27,
    h26, hrn, reg_eq g spsr m, hoff, and_bit_ne_zero w 24 (by decide),
    and_bit_ne_zero w 23 (by decide), Core.address]
  simp

theorem blockTop_eq (pre up : Bool) (rn : Reg) (list : BitVec 16) (h : list.getLsbD 15 = true)
    (c : Core) :
    (if up then c.reg rn + (BitVec.ofNat 32 (listSize list) - 1) * 4 + (if pre then 4 else 0)
      else c.reg rn - (if pre then 4 else 0)) = c.blockTop pre up rn list := by
  have hp := listSize_pos list h
  obtain ⟨k, hk⟩ : ∃ k, listSize list = k + 1 := ⟨listSize list - 1, by omega⟩
  simp only [Core.blockTop, Core.blockStart, hk, Nat.add_sub_cancel]
  have hmul : (BitVec.ofNat 32 (k + 1) - 1) * 4 = BitVec.ofNat 32 (4 * k) := by
    rw [BitVec.ofNat_add, BitVec.ofNat_mul, BitVec.mul_comm]
    congr 1
    bv_omega
  rw [hmul]
  cases up <;> cases pre
  · simp only [Bool.false_eq_true, if_false]
    bv_omega
  · simp only [Bool.false_eq_true, if_false, if_true]
    bv_omega
  · simp
  · simp only [if_true]
    bv_omega

theorem armTarget_block (w : Word) (h27 : w.getLsbD 27 = true) (h26 : w.getLsbD 26 = false)
    (h25 : w.getLsbD 25 = false) :
    armTarget g m w =
      if w.getLsbD 20 = true ∧ w.getLsbD 15 = true then
        some (load32 m ((core g spsr m).blockTop (w.getLsbD 24) (w.getLsbD 23) (field w 16 4)
          (field w 0 16)) &&& ~~~3)
      else some (g.pc + 4) := by
  have hrn : w >>> 16 &&& 0xF = (field w 16 4).setWidth 32 := shiftRight_and w 16 4
  have hlist : w &&& 0xFFFF = (field w 0 16).setWidth 32 := and_low w 16
  by_cases h15 : w.getLsbD 15 = true
  · have hl : (field w 0 16).getLsbD 15 = true := by rw [field_getLsbD _ _ _ _ (by decide)]; exact h15
    have htop := blockTop_eq (w.getLsbD 24) (w.getLsbD 23) (field w 16 4) (field w 0 16) hl
      (core g spsr m)
    simp only [armTarget, mask_branch, mask_exchange, mask_load, mask_block, mask_alu, dest_pc,
      h27, h26, h25, hrn, hlist, popcount_list, reg_eq g spsr m,
      and_bit_ne_zero w 24 (by decide), and_bit_ne_zero w 23 (by decide),
      and_bit_ne_zero w 15 (by decide), htop]
    simp
  · simp only [armTarget, mask_branch, mask_exchange, mask_load, mask_block, mask_alu, dest_pc,
      h27, h26, h25, and_bit_ne_zero w 15 (by decide), h15]
    simp

theorem armTarget_coprocessor (w : Word) (h27 : w.getLsbD 27 = true) (h26 : w.getLsbD 26 = true) :
    armTarget g m w = some (g.pc + 4) := by
  simp only [armTarget, mask_branch, mask_exchange, mask_load, mask_block, mask_alu, h27, h26]
  simp

theorem armTarget_alu (w : Word) (h27 : w.getLsbD 27 = false) (h26 : w.getLsbD 26 = false) :
    armTarget g m w =
      if w &&& 0x0FFFFFD0 = 0x012FFF10 then
        if ((core g spsr m).reg (field w 0 4)).getLsbD 0 then none
        else some ((core g spsr m).reg (field w 0 4) &&& ~~~3)
      else if field w 12 4 = 15 ∧ (AluOp.ofBits (field w 21 4)).isTest = false then
        some ((AluOp.ofBits (field w 21 4)).result ((core g spsr m).reg (field w 16 4))
          (operand2 g w g.cpsr) (core g spsr m).flagC &&& ~~~3)
      else some (g.pc + 4) := by
  have hrn : w >>> 16 &&& 0xF = (field w 16 4).setWidth 32 := shiftRight_and w 16 4
  have hrm : w &&& 0xF = (field w 0 4).setWidth 32 := and_low w 4
  have hop : w >>> 21 &&& 0xF = (field w 21 4).setWidth 32 := shiftRight_and w 21 4
  have hodd (x : Word) : x &&& 1 ≠ 0 ↔ x.getLsbD 0 = true := and_bit_ne_zero x 0 (by decide)
  have hflag : g.cpsr >>> 29 &&& 1 = if (core g spsr m).flagC then 1 else 0 := flag_word _ 29
  have nb : ¬ w &&& 0x0E000000 = 0x0A000000 := by
    rw [mask_branch, h27]
    exact fun h => Bool.noConfusion h.1
  have nl : ¬ (w &&& 0x0C100000 = 0x04100000 ∧ w >>> 12 &&& 0xF = 15) := by
    rw [mask_load, h26]
    exact fun h => Bool.noConfusion h.1.2.1
  have nm : ¬ (w &&& 0x0E100000 = 0x08100000 ∧ w &&& (1#32 <<< 15) ≠ 0) := by
    rw [mask_block, h27]
    exact fun h => Bool.noConfusion h.1.1
  by_cases hx : w &&& 0x0FFFFFD0 = 0x012FFF10
  · rw [if_pos hx, armTarget, if_neg nb, if_pos hx]
    simp only [hrm, reg_eq g spsr m, hodd]
  · rw [if_neg hx, armTarget, if_neg nb, if_neg hx, if_neg nl, if_neg nm]
    simp only [mask_alu, h27, h26, dest_pc, hop, hrn, reg_eq g spsr m, hflag,
      toNat_setWidth_32 (by decide : 4 ≤ 32), ← isTest_iff, and_self, true_and]
    by_cases hrd : field w 12 4 = 15
    · cases ht : (AluOp.ofBits (field w 21 4)).isTest with
      | true => simp only [hrd, if_true, true_and, Bool.true_eq_false, if_false]
      | false => simp only [hrd, alu_eq _ _ _ _ ht, if_true, true_and, Bool.false_eq_true, if_false]
    · simp only [hrd, if_false, false_and]

/-- Neither BX nor an ALU write of pc: the target is the next instruction. -/
theorem armTarget_following (w : Word) (h27 : w.getLsbD 27 = false) (h26 : w.getLsbD 26 = false)
    (hx : ¬ w &&& 0x0FFFFFD0 = 0x012FFF10)
    (h : field w 12 4 ≠ 15 ∨ (AluOp.ofBits (field w 21 4)).isTest = true) :
    armTarget g m w = some (g.pc + 4) := by
  rw [armTarget_alu g none m w h27 h26, if_neg hx, if_neg]
  intro hboth
  obtain ⟨hrd, ht⟩ := hboth
  rcases h with h | h
  · exact h hrd
  · rw [ht] at h
    cases h

end AipcOs.StepDecode
