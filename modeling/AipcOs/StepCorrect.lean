import AipcOs.StepDecode

/-! arm_next_pc against the architecture, over the whole instruction space: where the core stays
in ARM state the target is the core's next pc; the loads of pc and BXJ leave ARM state without
being noticed. -/
namespace AipcOs.StepCorrect
open ByteMemory WordBits Armv5 Step StepDecode

variable (g : ArmRegs) (spsr : Option Word) (m : Mem)

/-- What arm_next_pc says about a decoded instruction, given where the core goes. -/
structure Agrees (c : Core) (i : Insn) (target : Option Word) (isa : Isa) (p : Word) : Prop where
  arm : isa = .arm → c.loadsAligned i → target = some p
  stays : isa = .arm → c.leavesByLoadOrJazelle i = false
  leaves : isa ≠ .arm → i.restoresSpsr = false →
    (target = none ↔ c.leavesByLoadOrJazelle i = false)

theorem agrees_following {c : Core} {i : Insn} {isa : Isa} {p : Word}
    (h : Outcome.next .arm (c.pc + 4) = .next isa p) (hu : c.leavesByLoadOrJazelle i = false) :
    Agrees c i (some (c.pc + 4)) isa p := by
  cases h
  exact ⟨fun _ _ => rfl, fun _ => hu, fun hne => absurd rfl hne⟩

/-- A change of state that the targets of loads and BXJ do not report. -/
theorem agrees_unnoticed {c : Core} {i : Insn} {isa : Isa} {p next : Word} (hne : isa ≠ .arm)
    (hu : c.leavesByLoadOrJazelle i = true) : Agrees c i (some next) isa p := by
  refine ⟨fun ha => absurd ha hne, fun ha => absurd ha hne, fun _ _ => ?_⟩
  rw [hu]
  constructor
  · intro h
    cases h
  · intro h
    cases h

theorem branchWrite_next {v : Word} {isa : Isa} {p : Word} (h : branchWrite v = .next isa p) :
    isa = .arm ∧ p = v ∧ v &&& 3 = 0 := by
  unfold branchWrite at h
  split at h
  · cases h
    exact ⟨rfl, rfl, by assumption⟩
  · cases h

theorem low_bits_zero (v : Word) (h0 : v.getLsbD 0 = false) (h1 : v.getLsbD 1 = false) :
    v &&& 3 = 0 := by
  rw [and_eq_iff_bits, forall_bits, h0, h1]
  simp

/-- An interworking write leaves ARM state exactly when the value is odd. -/
theorem exchangeWrite_next {v : Word} {isa : Isa} {p : Word} (h : exchangeWrite v = .next isa p) :
    (isa = .arm ∧ v.getLsbD 0 = false ∧ p = v ∧ v &&& 3 = 0) ∨
      (isa = .thumb ∧ v.getLsbD 0 = true) := by
  unfold exchangeWrite at h
  cases h0 : v.getLsbD 0 with
  | true =>
    rw [h0, if_pos rfl] at h
    cases h
    exact .inr ⟨rfl, rfl⟩
  | false =>
    rw [h0, if_neg (by decide)] at h
    cases h1 : v.getLsbD 1 with
    | true =>
      rw [h1, if_pos rfl] at h
      cases h
    | false =>
      rw [h1, if_neg (by decide)] at h
      cases h
      exact .inl ⟨rfl, rfl, rfl, low_bits_zero v h0 h1⟩

/-- With the S bit the successor is ARM only through an aligned value. -/
theorem restoreWrite_arm {s : Option Word} {v p : Word}
    (h : restoreWrite s v = .next .arm p) : p = v ∧ v &&& 3 = 0 := by
  unfold restoreWrite at h
  split at h
  · cases h
  · split at h
    · cases h
    · split at h
      · cases h
      · exact (branchWrite_next h).2

theorem agrees_alu (w : Word) (h27 : w.getLsbD 27 = false) (h26 : w.getLsbD 26 = false)
    (hx : ¬ w &&& 0x0FFFFFD0 = 0x012FFF10) (src : Shifter)
    (hsrc : operand2 g w g.cpsr = (core g spsr m).shifter src)
    (hreg : ∀ rm rs t, src ≠ .shiftReg rm rs t) (s : Bool) {isa : Isa} {p : Word}
    (h : (core g spsr m).execute (.dataProcessing (AluOp.ofBits (field w 21 4)) s (field w 16 4)
      (field w 12 4) src) = .next isa p) :
    Agrees (core g spsr m) (.dataProcessing (AluOp.ofBits (field w 21 4)) s (field w 16 4)
      (field w 12 4) src) (armTarget g m w) isa p := by
  rw [armTarget_alu g spsr m w h27 h26, if_neg hx, hsrc]
  have hex : (core g spsr m).execute (.dataProcessing (AluOp.ofBits (field w 21 4)) s
      (field w 16 4) (field w 12 4) src) =
      if (AluOp.ofBits (field w 21 4)).isTest ∨ field w 12 4 ≠ 15 then .next .arm (g.pc + 4)
      else if s then restoreWrite spsr ((AluOp.ofBits (field w 21 4)).result
          ((core g spsr m).reg (field w 16 4)) ((core g spsr m).shifter src) (core g spsr m).flagC)
        else branchWrite ((AluOp.ofBits (field w 21 4)).result
          ((core g spsr m).reg (field w 16 4)) ((core g spsr m).shifter src)
          (core g spsr m).flagC) := by
    cases src with
    | imm => rfl
    | shiftImm => rfl
    | shiftReg rm rs t => exact absurd rfl (hreg rm rs t)
  rw [hex] at h
  by_cases hf : (AluOp.ofBits (field w 21 4)).isTest = true ∨ field w 12 4 ≠ 15
  · rw [if_pos hf] at h
    rw [if_neg (by intro ⟨h15, ht⟩; rcases hf with hf | hf <;> simp_all)]
    exact agrees_following (c := core g spsr m) h rfl
  · have hrd : field w 12 4 = 15 := by
      by_contra hne
      exact hf (.inr hne)
    have ht : (AluOp.ofBits (field w 21 4)).isTest = false := by
      cases hb : (AluOp.ofBits (field w 21 4)).isTest with
      | true => exact absurd (.inl hb) hf
      | false => rfl
    rw [if_neg hf] at h
    rw [if_pos ⟨hrd, ht⟩]
    cases s with
    | true =>
      refine ⟨fun ha _ => ?_, fun _ => rfl, fun _ hr => ?_⟩
      · rw [if_pos rfl, ha] at h
        obtain ⟨rfl, hal⟩ := restoreWrite_arm h
        rw [aligned_mask _ hal]
      · simp [Insn.restoresSpsr, ht, hrd] at hr
    | false =>
      rw [if_neg (by decide)] at h
      obtain ⟨rfl, rfl, hal⟩ := branchWrite_next h
      rw [aligned_mask _ hal]
      exact ⟨fun _ _ => rfl, fun _ => rfl, fun hne => absurd rfl hne⟩

def plain : Insn → Bool
  | .multiply .. | .multiplyLong .. | .swap .. | .halfword .. | .doubleword .. | .statusRead _
  | .statusWrite | .countZeros .. | .saturating .. | .halfMultiply .. | .preload | .coprocessor
  | .breakpoint | .softwareInterrupt | .undefined => true
  | _ => false

theorem ite_unpredictable {P : Prop} [Decidable P] {o : Outcome} {isa : Isa} {p : Word}
    (h : (if P then .unpredictable else o) = .next isa p) : ¬ P ∧ o = .next isa p := by
  by_cases hp : P
  · rw [if_pos hp] at h
    cases h
  · rw [if_neg hp] at h
    exact ⟨hp, h⟩

theorem execute_plain {c : Core} {i : Insn} {isa : Isa} {p : Word} (hi : plain i = true)
    (h : c.execute i = .next isa p) : Outcome.next .arm (c.pc + 4) = .next isa p := by
  cases i with
  | doubleword rn rd =>
    simp only [Core.execute] at h
    split at h
    · cases h
    · exact (ite_unpredictable h).2
  | multiply | multiplyLong | swap | halfword | statusRead | countZeros | saturating
  | halfMultiply => exact (ite_unpredictable h).2
  | statusWrite | preload | coprocessor => exact h
  | breakpoint | softwareInterrupt | undefined => cases h
  | _ => cases hi

theorem plain_stays {i : Insn} (hi : plain i = true) (c : Core) :
    c.leavesByLoadOrJazelle i = false := by
  cases i <;> first | rfl | cases hi

theorem agrees_plain {c : Core} {i : Insn} {target : Option Word} {isa : Isa} {p : Word}
    (hi : plain i = true) (ht : target = some (c.pc + 4)) (h : c.execute i = .next isa p) :
    Agrees c i target isa p := by
  rw [ht]
  exact agrees_following (execute_plain hi h) (plain_stays hi c)

theorem decodeExtension_plain (w : Word) : plain (decodeExtension w) = true := by
  simp only [decodeExtension]
  split <;> repeat' split
  all_goals rfl

/-- Every defined instruction of the extension space has another register than r15 there. -/
theorem decodeExtension_dest {c : Core} {w : Word} {isa : Isa} {p : Word}
    (h : c.execute (decodeExtension w) = .next isa p) : field w 12 4 ≠ 15 := by
  intro hrd
  revert h
  simp only [decodeExtension, hrd]
  split
  · split
    · split <;> simp [Core.execute]
    · split
      · simp [Core.execute]
      · split
        · simp [Core.execute]
        · cases w.getLsbD 21 <;> simp [Core.execute]
  · simp [Core.execute]
  · split <;> simp [Core.execute]

theorem agrees_extension (w : Word) (h27 : w.getLsbD 27 = false) (h26 : w.getLsbD 26 = false)
    (h7 : w.getLsbD 7 = true) {isa : Isa} {p : Word}
    (h : (core g spsr m).execute (decodeExtension w) = .next isa p) :
    Agrees (core g spsr m) (decodeExtension w) (armTarget g m w) isa p := by
  have hx : ¬ w &&& 0x0FFFFFD0 = 0x012FFF10 := by
    rw [mask_exchange, h7]
    exact fun hc => Bool.noConfusion hc.2.2.2.2.1
  exact agrees_plain (decodeExtension_plain w)
    (armTarget_following g m w h27 h26 hx (.inl (decodeExtension_dest h))) h

theorem misc_isTest (w : Word) (h : isMisc w = true) :
    (AluOp.ofBits (field w 21 4)).isTest = true := by
  have h24 : (field w 21 4).getLsbD 3 = true := by
    rw [field_getLsbD _ _ _ _ (by decide)]
    simp_all [isMisc]
  have h23 : (field w 21 4).getLsbD 2 = false := by
    rw [field_getLsbD _ _ _ _ (by decide)]
    simp_all [isMisc]
  revert h24 h23
  generalize field w 21 4 = op
  revert op
  decide

theorem agrees_exchange (w : Word) (link : Bool) (h27 : w.getLsbD 27 = false)
    (h26 : w.getLsbD 26 = false) (h25 : w.getLsbD 25 = false) (hm : isMisc w = true)
    (hop : field w 21 2 = 1) (h7 : w.getLsbD 7 = false) (h6 : w.getLsbD 6 = false)
    (h4 : w.getLsbD 4 = true) {isa : Isa} {p : Word}
    (h : (core g spsr m).execute (.branchExchange link (field w 8 12) (field w 0 4)) =
      .next isa p) :
    Agrees (core g spsr m) (.branchExchange link (field w 8 12) (field w 0 4))
      (armTarget g m w) isa p := by
  obtain ⟨hc, hw⟩ := ite_unpredictable h
  have hsbo : field w 8 12 = BitVec.allOnes 12 := by
    by_contra hne
    exact hc (.inl hne)
  have hx := (mask_exchange w).2 ⟨⟨h27, h26, h25⟩, hm, hop, hsbo, h7, h6, h4⟩
  rw [armTarget_alu g spsr m w h27 h26, if_pos hx]
  rcases exchangeWrite_next hw with ⟨rfl, h0, rfl, hal⟩ | ⟨rfl, h0⟩
  · rw [h0, if_neg (by decide), aligned_mask _ hal]
    exact ⟨fun _ _ => rfl, fun _ => rfl, fun hne => absurd rfl hne⟩
  · rw [h0, if_pos rfl]
    refine ⟨?_, ?_, ?_⟩
    · intro ha
      cases ha
    · intro ha
      cases ha
    · intro _ _
      exact ⟨fun _ => rfl, fun _ => rfl⟩

theorem agrees_jazelle (sbo : BitVec 12) (rm : Reg) (next : Word) {isa : Isa} {p : Word}
    (h : (core g spsr m).execute (.branchJazelle sbo rm) = .next isa p) :
    Agrees (core g spsr m) (.branchJazelle sbo rm) (some next) isa p := by
  obtain ⟨-, hw⟩ := ite_unpredictable h
  cases hw
  exact agrees_unnoticed (by decide) rfl

theorem plain_ite (P : Prop) [Decidable P] {i j : Insn} (hi : plain i = true)
    (hj : plain j = true) : plain (if P then i else j) = true := by
  split
  · exact hi
  · exact hj

theorem plain_ite_neg {P : Prop} [Decidable P] {i j : Insn} (h : ¬ P) (hj : plain j = true) :
    plain (if P then i else j) = true := by
  rwa [if_neg h]

/-- What the miscellaneous space holds besides BX and BLX. -/
theorem decodeMisc_cases (w : Word) :
    (plain (decodeMisc w) = true ∧ ¬ w &&& 0x0FFFFFD0 = 0x012FFF10) ∨
    (∃ sbo rm, decodeMisc w = .branchJazelle sbo rm ∧ ¬ w &&& 0x0FFFFFD0 = 0x012FFF10) ∨
    ∃ link, decodeMisc w = .branchExchange link (field w 8 12) (field w 0 4) ∧
      field w 21 2 = 1 ∧ w.getLsbD 7 = false ∧ w.getLsbD 6 = false ∧ w.getLsbD 4 = true := by
  rw [mask_exchange]
  cases h7 : w.getLsbD 7 with
  | true =>
    left
    exact ⟨by rw [decodeMisc, h7]; rfl, by simp⟩
  | false =>
    cases h6 : w.getLsbD 6 with
    | true =>
      left
      refine ⟨?_, by simp⟩
      rw [decodeMisc, h7, if_neg Bool.false_ne_true, h6]
      cases w.getLsbD 5 <;> cases w.getLsbD 4
      · rfl
      · rfl
      · rfl
      · exact plain_ite _ rfl rfl
    | false =>
      rw [decodeMisc, h7, if_neg Bool.false_ne_true, h6]
      cases w.getLsbD 5 <;> cases w.getLsbD 4 <;> by_cases h1 : field w 21 2 = 1
      · left
        exact ⟨plain_ite _ rfl rfl, by simp⟩
      · left
        exact ⟨plain_ite _ rfl rfl, by simp⟩
      · right
        right
        exact ⟨false, if_pos h1, h1, rfl, rfl, rfl⟩
      · left
        refine ⟨?_, fun hc => h1 hc.2.2.1⟩
        exact plain_ite_neg h1 (plain_ite _ rfl rfl)
      · right
        left
        exact ⟨field w 8 12, field w 0 4, if_pos h1, by simp⟩
      · left
        exact ⟨plain_ite_neg h1 rfl, by simp⟩
      · right
        right
        exact ⟨true, if_pos h1, h1, rfl, rfl, rfl⟩
      · left
        exact ⟨plain_ite_neg h1 rfl, fun hc => h1 hc.2.2.1⟩

/-- BX and BLX are the first test, the rest are comparisons to the data-processing test. -/
theorem agrees_misc (w : Word) (h27 : w.getLsbD 27 = false) (h26 : w.getLsbD 26 = false)
    (h25 : w.getLsbD 25 = false) (hm : isMisc w = true) {isa : Isa} {p : Word}
    (h : (core g spsr m).execute (decodeMisc w) = .next isa p) :
    Agrees (core g spsr m) (decodeMisc w) (armTarget g m w) isa p := by
  have following (hx : ¬ w &&& 0x0FFFFFD0 = 0x012FFF10) : armTarget g m w = some (g.pc + 4) :=
    armTarget_following g m w h27 h26 hx (.inr (misc_isTest w hm))
  rcases decodeMisc_cases w with ⟨hp, hx⟩ | ⟨sbo, rm, hd, hx⟩ | ⟨link, hd, hop, h7, h6, h4⟩
  · exact agrees_plain hp (following hx) h
  · rw [hd] at h ⊢
    rw [following hx]
    exact agrees_jazelle g spsr m sbo rm (g.pc + 4) h
  · rw [hd] at h ⊢
    exact agrees_exchange g spsr m w link h27 h26 h25 hm hop h7 h6 h4 h

theorem agrees_load (w : Word) (h27 : w.getLsbD 27 = false) (h26 : w.getLsbD 26 = true)
    {isa : Isa} {p : Word}
    (h : (core g spsr m).execute (.loadStore (w.getLsbD 20) (w.getLsbD 22) (w.getLsbD 24)
      (w.getLsbD 23) (w.getLsbD 21) (field w 16 4) (field w 12 4) (offsetOf w)) = .next isa p) :
    Agrees (core g spsr m) (.loadStore (w.getLsbD 20) (w.getLsbD 22) (w.getLsbD 24)
      (w.getLsbD 23) (w.getLsbD 21) (field w 16 4) (field w 12 4) (offsetOf w))
      (armTarget g m w) isa p := by
  rw [armTarget_load g spsr m w h27 h26]
  generalize w.getLsbD 24 = pre at h ⊢
  generalize w.getLsbD 23 = up at h ⊢
  cases hl : w.getLsbD 20 with
  | false =>
    rw [hl] at h
    rw [if_neg (by simp)]
    exact agrees_following (c := core g spsr m) h rfl
  | true =>
    rw [hl] at h
    by_cases hrd : field w 12 4 = 15
    · simp only [Core.execute, hrd] at h
      rw [if_neg (by simp)] at h
      obtain ⟨-, h⟩ := ite_unpredictable h
      obtain ⟨ha, h⟩ := ite_unpredictable h
      have hal : (core g spsr m).address pre up (field w 16 4) (offsetOf w) &&& 3 = 0 := by
        by_contra hne
        exact ha hne
      rw [if_pos ⟨rfl, hrd⟩, hrd, load32_aligned _ _ hal]
      rcases exchangeWrite_next h with ⟨rfl, h0, rfl, hv⟩ | ⟨rfl, h0⟩
      · exact ⟨fun _ _ => congrArg some (aligned_mask _ hv), fun _ => h0, fun hne => absurd rfl hne⟩
      · exact agrees_unnoticed (by decide) h0
    · rw [if_neg (fun hc => hrd hc.2)]
      simp only [Core.execute] at h
      rw [if_pos (.inr hrd)] at h
      refine agrees_following (c := core g spsr m) h ?_
      simp only [Core.leavesByLoadOrJazelle, Core.loadedPc, if_neg hrd]

/-- The top of an aligned block is aligned. -/
theorem blockTop_aligned (c : Core) (pre up : Bool) (rn : Reg) (list : BitVec 16)
    (h : c.reg rn &&& 3 = 0) : c.blockTop pre up rn list &&& 3 = 0 := by
  have hr : (c.reg rn).toNat % 4 = 0 := (aligned_iff _).1 h
  refine (aligned_iff _).2 ?_
  simp only [Core.blockTop, Core.blockStart]
  generalize listSize list = n
  generalize c.reg rn = b at hr
  have h4 : (4 : Word).toNat = 4 := rfl
  cases up <;> cases pre <;>
    simp only [BitVec.toNat_add, BitVec.toNat_sub, BitVec.toNat_ofNat, h4] <;> omega

/-- A block load of the pc. -/
theorem agrees_block_pc (pre up s wb : Bool) (rn : Reg) (list : BitVec 16)
    (h15 : list.getLsbD 15 = true) {isa : Isa} {p : Word}
    (h : (core g spsr m).execute (.block true pre up s wb rn list) = .next isa p) :
    Agrees (core g spsr m) (.block true pre up s wb rn list)
      (some (load32 m ((core g spsr m).blockTop pre up rn list) &&& ~~~3)) isa p := by
  simp only [Core.execute] at h
  rw [h15, if_neg (by simp)] at h
  obtain ⟨-, h⟩ := ite_unpredictable h
  have hload (ha : (core g spsr m).reg rn &&& 3 = 0) :
      load32 m ((core g spsr m).blockTop pre up rn list) =
        wordAt m ((core g spsr m).blockTop pre up rn list &&& ~~~3) := by
    have ht := blockTop_aligned (core g spsr m) pre up rn list ha
    rw [load32_aligned _ _ ht, aligned_mask _ ht]
  cases s with
  | true =>
    rw [if_pos rfl] at h
    refine ⟨fun ha hal => ?_, fun _ => rfl, fun _ hr => ?_⟩
    · rw [ha] at h
      obtain ⟨rfl, hv⟩ := restoreWrite_arm h
      rw [hload hal]
      exact congrArg some (aligned_mask _ hv)
    · rw [Insn.restoresSpsr, h15] at hr
      cases hr
  | false =>
    rw [if_neg (by simp)] at h
    have hu : (core g spsr m).leavesByLoadOrJazelle (.block true pre up false wb rn list) =
        (wordAt m ((core g spsr m).blockTop pre up rn list &&& ~~~3)).getLsbD 0 := by
      simp only [Core.leavesByLoadOrJazelle, Core.loadedPc, h15, if_true]
      rfl
    obtain ⟨rfl, h0, rfl, hv⟩ | ⟨rfl, h0⟩ := exchangeWrite_next h
    · refine ⟨fun _ hal => ?_, fun _ => hu.trans h0, fun hne => absurd rfl hne⟩
      rw [hload hal]
      exact congrArg some (aligned_mask _ hv)
    · exact agrees_unnoticed (by decide) (hu.trans h0)

theorem agrees_block (w : Word) (h27 : w.getLsbD 27 = true) (h26 : w.getLsbD 26 = false)
    (h25 : w.getLsbD 25 = false) {isa : Isa} {p : Word}
    (h : (core g spsr m).execute (.block (w.getLsbD 20) (w.getLsbD 24) (w.getLsbD 23)
      (w.getLsbD 22) (w.getLsbD 21) (field w 16 4) (field w 0 16)) = .next isa p) :
    Agrees (core g spsr m) (.block (w.getLsbD 20) (w.getLsbD 24) (w.getLsbD 23)
      (w.getLsbD 22) (w.getLsbD 21) (field w 16 4) (field w 0 16)) (armTarget g m w) isa p := by
  have h15 : (field w 0 16).getLsbD 15 = w.getLsbD 15 := field_getLsbD _ _ _ _ (by decide)
  rw [armTarget_block g spsr m w h27 h26 h25, ← h15]
  generalize w.getLsbD 24 = pre at h ⊢
  generalize w.getLsbD 23 = up at h ⊢
  generalize w.getLsbD 21 = wb at h ⊢
  generalize field w 16 4 = rn at h ⊢
  generalize field w 0 16 = list at h ⊢
  cases hl : w.getLsbD 20 with
  | false =>
    rw [hl] at h
    rw [if_neg (by simp)]
    exact agrees_following (c := core g spsr m) h rfl
  | true =>
    rw [hl] at h
    cases hpc : list.getLsbD 15 with
    | false =>
      simp only [Core.execute] at h
      rw [hpc, if_pos (by simp)] at h
      rw [if_neg (by simp)]
      refine agrees_following (c := core g spsr m) h ?_
      cases w.getLsbD 22 <;>
        simp only [Core.leavesByLoadOrJazelle, Core.loadedPc, hpc, Bool.false_eq_true, if_false]
    | true =>
      rw [if_pos ⟨rfl, rfl⟩]
      exact agrees_block_pc g spsr m pre up _ wb rn list hpc h

/-- Data processing with a register operand, and the spaces in it. -/
theorem agrees_register (w : Word) {isa : Isa} {p : Word} (h27 : w.getLsbD 27 = false)
    (h26 : w.getLsbD 26 = false) (h25 : w.getLsbD 25 = false)
    (h : (core g spsr m).execute (decode w) = .next isa p) :
    Agrees (core g spsr m) (decode w) (armTarget g m w) isa p := by
  cases hext : w.getLsbD 7 && w.getLsbD 4 with
  | true =>
    have hd : decode w = decodeExtension w := by simp only [decode, h27, h26, h25, hext, if_true]
    rw [hd] at h ⊢
    have h7 : w.getLsbD 7 = true := by simp_all
    exact agrees_extension g spsr m w h27 h26 h7 h
  | false =>
    cases hm : isMisc w with
    | true =>
      have hd : decode w = decodeMisc w := by
        simp only [decode, h27, h26, h25, hext, hm, if_true, Bool.false_eq_true, if_false]
      rw [hd] at h ⊢
      exact agrees_misc g spsr m w h27 h26 h25 hm h
    | false =>
      have hx : ¬ w &&& 0x0FFFFFD0 = 0x012FFF10 := by
        rw [mask_exchange, hm]
        exact fun hc => Bool.noConfusion hc.2.1
      cases h4 : w.getLsbD 4 with
      | true =>
        have hd : decode w = .dataProcessing (AluOp.ofBits (field w 21 4)) (w.getLsbD 20)
            (field w 16 4) (field w 12 4)
            (.shiftReg (field w 0 4) (field w 8 4) (ShiftType.ofBits (field w 5 2))) := by
          have h7 : w.getLsbD 7 = false := by rwa [h4, Bool.and_true] at hext
          simp only [decode, h27, h26, h25, h7, hm, h4, Bool.false_and, if_true,
            Bool.false_eq_true, if_false]
        rw [hd] at h ⊢
        obtain ⟨hne, h⟩ := ite_unpredictable h
        rw [armTarget_following g m w h27 h26 hx (.inl fun hc => hne (.inl hc))]
        exact agrees_following (c := core g spsr m) h rfl
      | false =>
        have hd : decode w = .dataProcessing (AluOp.ofBits (field w 21 4)) (w.getLsbD 20)
            (field w 16 4) (field w 12 4)
            (.shiftImm (field w 0 4) (ShiftType.ofBits (field w 5 2)) (field w 7 5)) := by
          simp only [decode, h27, h26, h25, hm, h4, Bool.and_false, Bool.false_eq_true,
            if_false]
        rw [hd] at h ⊢
        exact agrees_alu g spsr m w h27 h26 hx _ (operand2_shift g spsr m w h25 h4)
          (by simp) (w.getLsbD 20) h

theorem agrees_immediate (w : Word) {isa : Isa} {p : Word} (h27 : w.getLsbD 27 = false)
    (h26 : w.getLsbD 26 = false) (h25 : w.getLsbD 25 = true)
    (h : (core g spsr m).execute (decode w) = .next isa p) :
    Agrees (core g spsr m) (decode w) (armTarget g m w) isa p := by
  have hx : ¬ w &&& 0x0FFFFFD0 = 0x012FFF10 := by
    rw [mask_exchange, h25]
    exact fun hc => Bool.noConfusion hc.1.2.2
  cases hm : isMisc w with
  | true =>
    have hp : plain (decode w) = true := by
      simp only [decode, h27, h26, h25, hm, if_true]
      exact plain_ite _ rfl rfl
    exact agrees_plain hp
      (armTarget_following g m w h27 h26 hx (.inr (misc_isTest w hm))) h
  | false =>
    have hd : decode w = .dataProcessing (AluOp.ofBits (field w 21 4)) (w.getLsbD 20)
        (field w 16 4) (field w 12 4) (.imm (field w 8 4) (field w 0 8)) := by
      simp only [decode, h27, h26, h25, hm, Bool.false_eq_true, if_false]
    rw [hd] at h ⊢
    exact agrees_alu g spsr m w h27 h26 hx _ (operand2_imm g spsr m w h25)
      (by simp) (w.getLsbD 20) h

theorem agrees_single (w : Word) {isa : Isa} {p : Word} (h27 : w.getLsbD 27 = false)
    (h26 : w.getLsbD 26 = true)
    (h : (core g spsr m).execute (decode w) = .next isa p) :
    Agrees (core g spsr m) (decode w) (armTarget g m w) isa p := by
  cases h25 : w.getLsbD 25 with
  | false =>
    have hd : decode w = .loadStore (w.getLsbD 20) (w.getLsbD 22) (w.getLsbD 24)
        (w.getLsbD 23) (w.getLsbD 21) (field w 16 4) (field w 12 4) (offsetOf w) := by
      simp only [decode, h27, h26, h25, offsetOf, Bool.false_eq_true, if_false]
    rw [hd] at h ⊢
    exact agrees_load g spsr m w h27 h26 h
  | true =>
    cases h4 : w.getLsbD 4 with
    | true =>
      have hd : decode w = .undefined := by simp only [decode, h27, h26, h25, h4, if_true]
      rw [hd] at h
      cases h
    | false =>
      have hd : decode w = .loadStore (w.getLsbD 20) (w.getLsbD 22) (w.getLsbD 24)
          (w.getLsbD 23) (w.getLsbD 21) (field w 16 4) (field w 12 4) (offsetOf w) := by
        simp only [decode, h27, h26, h25, h4, offsetOf, Bool.false_eq_true, if_false, if_true]
      rw [hd] at h ⊢
      exact agrees_load g spsr m w h27 h26 h

/-- arm_next_pc and the core on every conditional instruction. -/
theorem agrees_decode (w : Word) {isa : Isa} {p : Word}
    (h : (core g spsr m).execute (decode w) = .next isa p) :
    Agrees (core g spsr m) (decode w) (armTarget g m w) isa p := by
  cases h27 : w.getLsbD 27 with
  | false =>
    cases h26 : w.getLsbD 26 with
    | false =>
      cases h25 : w.getLsbD 25 with
      | false => exact agrees_register g spsr m w h27 h26 h25 h
      | true => exact agrees_immediate g spsr m w h27 h26 h25 h
    | true => exact agrees_single g spsr m w h27 h26 h
  | true =>
    cases h26 : w.getLsbD 26 with
    | false =>
      cases h25 : w.getLsbD 25 with
      | false =>
        have hd : decode w = .block (w.getLsbD 20) (w.getLsbD 24) (w.getLsbD 23) (w.getLsbD 22)
            (w.getLsbD 21) (field w 16 4) (field w 0 16) := by
          simp only [decode, h27, h26, h25]
        rw [hd] at h ⊢
        exact agrees_block g spsr m w h27 h26 h25 h
      | true =>
        have hd : decode w = .branch (w.getLsbD 24) (field w 0 24) := by
          simp only [decode, h27, h26, h25]
        rw [hd] at h ⊢
        rw [armTarget_branch g m w h27 h26 h25]
        cases h
        exact ⟨fun _ _ => rfl, fun _ => rfl, fun hne => absurd rfl hne⟩
    | true =>
      have hp : plain (decode w) = true := by
        cases h25 : w.getLsbD 25 with
        | false =>
          simp only [decode, h27, h26, h25]
          rfl
        | true =>
          simp only [decode, h27, h26, h25]
          exact plain_ite _ rfl rfl
      exact agrees_plain hp (armTarget_coprocessor g m w h27 h26) h

theorem armNextPc_of_T (hT : g.cpsr &&& CPSR_T = 0) :
    armNextPc g m =
      if field (core g spsr m).insnWord 28 4 = 15 then none
      else if (core g spsr m).taken then armTarget g m (core g spsr m).insnWord
      else some (g.pc + 4) := by
  have hw : load32 m g.pc = (core g spsr m).insnWord := rfl
  have h15 : (field (core g spsr m).insnWord 28 4).setWidth 32 = (15 : Word) ↔
      field (core g spsr m).insnWord 28 4 = 15 := setWidth_eq_iff (by decide) _ 15 (by decide)
  simp only [armNextPc, hT, ne_eq, not_true_eq_false, if_false, hw, top_field, h15,
    condTrue_eq g spsr m]
  by_cases hc : field (core g spsr m).insnWord 28 4 = 15
  · rw [if_pos hc, if_pos hc]
  · rw [if_neg hc, if_neg hc]
    cases ht : (core g spsr m).taken with
    | true =>
      rw [Core.taken] at ht
      simp [ht]
    | false =>
      rw [Core.taken] at ht
      simp [ht]

/-- Where the core stays in ARM state, arm_next_pc gives the core's next pc. -/
theorem armNextPc_eq_step (p : Word) (hT : g.cpsr &&& CPSR_T = 0)
    (hcond : field (core g spsr m).insnWord 28 4 ≠ 15)
    (hstep : (core g spsr m).step = .next .arm p)
    (halign : (core g spsr m).loadsAligned (core g spsr m).insn) :
    armNextPc g m = some p := by
  have hi : (core g spsr m).insn = decode (core g spsr m).insnWord := if_neg hcond
  rw [armNextPc_of_T g spsr m hT, if_neg hcond]
  rw [Core.step] at hstep
  cases ht : (core g spsr m).taken with
  | true =>
    rw [ht, if_pos rfl, hi] at hstep
    rw [hi] at halign
    rw [if_pos rfl]
    exact (agrees_decode g spsr m _ hstep).arm rfl halign
  | false =>
    rw [ht, if_neg Bool.false_ne_true] at hstep
    rw [if_neg Bool.false_ne_true]
    cases hstep
    rfl

def regsAt (r0 sp pc : Word) : ArmRegs where
  r := fun i => if i.val = 0 then r0 else 0
  sp := sp
  lr := 0
  pc := pc
  cpsr := 0x13

def popMem : Mem :=
  storeWord (storeWord (fun _ => 0) 0x30000000 0xE8BD8010) 0x30001004 0x30000200

theorem armNextPc_pop :
    armNextPc (regsAt 0 0x30001000 0x30000000) popMem = some 0x30000200 :=
  armNextPc_eq_step (regsAt 0 0x30001000 0x30000000) none popMem 0x30000200
    (by decide) (by decide) (by decide)
    (by change (regsAt 0 0x30001000 0x30000000).sp &&& 3 = 0; decide)

theorem unconditional_stays (c : Core) (w : Word) :
    c.leavesByLoadOrJazelle (decodeUnconditional w) = false := by
  simp only [decodeUnconditional]
  split <;> repeat' split
  all_goals rfl

/-- Among the defined instructions that do not restore the SPSR, a change of state goes
unnoticed exactly for BXJ and for the loads of an odd word into pc. -/
theorem armNextPc_none_iff (isa : Isa) (p : Word) (hT : g.cpsr &&& CPSR_T = 0)
    (hstep : (core g spsr m).step = .next isa p)
    (hs : (core g spsr m).insn.restoresSpsr = false) :
    (isa ≠ .arm → armNextPc g m = none) ↔
      ¬ ((core g spsr m).taken = true ∧
        (core g spsr m).leavesByLoadOrJazelle (core g spsr m).insn = true) := by
  rw [armNextPc_of_T g spsr m hT]
  by_cases hcond : field (core g spsr m).insnWord 28 4 = 15
  · have hi : (core g spsr m).insn = decodeUnconditional (core g spsr m).insnWord := if_pos hcond
    rw [if_pos hcond, hi, unconditional_stays]
    simp
  · have hi : (core g spsr m).insn = decode (core g spsr m).insnWord := if_neg hcond
    rw [if_neg hcond]
    rw [hi] at hs ⊢
    rw [Core.step, hi] at hstep
    cases ht : (core g spsr m).taken with
    | true =>
      rw [ht, if_pos rfl] at hstep
      have ha := agrees_decode g spsr m _ hstep
      rw [if_pos rfl]
      by_cases hisa : isa = .arm
      · simp [hisa, ha.stays hisa]
      · simp [hisa, ha.leaves hisa hs]
    | false =>
      rw [ht, if_neg Bool.false_ne_true] at hstep
      cases hstep
      simp

def bxMem : Mem := storeWord (fun _ => 0) 0x30000000 0xE12FFF10

theorem armNextPc_bx_thumb : armNextPc (regsAt 0x30002001 0 0x30000000) bxMem = none :=
  (armNextPc_none_iff (regsAt 0x30002001 0 0x30000000) none bxMem .thumb 0x30002000
    (by decide) (by decide) (by decide)).2 (by decide) (by decide)

def ldrMem : Mem :=
  storeWord (storeWord (fun _ => 0) 0x30000000 0xE590F000) 0x30001000 0x30002001

theorem armNextPc_enters_thumb :
    ¬ ∀ (g : ArmRegs) (spsr : Option Word) (m : Mem) (isa : Isa) (p : Word),
      g.cpsr &&& CPSR_T = 0 → (core g spsr m).step = .next isa p →
      (core g spsr m).insn.restoresSpsr = false → isa ≠ .arm → armNextPc g m = none := by
  intro h
  have hn := h (regsAt 0x30001000 0 0x30000000) none ldrMem .thumb 0x30002000
    (by decide) (by decide) (by decide) (by decide)
  have hs : armNextPc (regsAt 0x30001000 0 0x30000000) ldrMem = some 0x30002000 := by decide
  rw [hn] at hs
  cases hs

end AipcOs.StepCorrect
