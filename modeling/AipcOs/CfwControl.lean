import AipcOs.Armv5
import AipcOs.CfwPlan

/-! Where the processor goes in an image that the EBOOT stage of cfw has patched. -/
namespace AipcOs.CfwControl
open ByteMemory WordBits Armv5 WordPattern PatchFinder PatchPair CfwEboot CfwPlan

def place (base : Word) (i : Nat) : Word := base + BitVec.ofNat 32 (4 * i)

def Loaded (c : Core) (base : Word) (m : Image 32) (n : Nat) : Prop :=
  ∀ i < n, wordAt c.mem (place base i) = m i

instance (c : Core) (base : Word) (m : Image 32) (n : Nat) : Decidable (Loaded c base m n) :=
  inferInstanceAs (Decidable (∀ i < n, _))

variable {c : Core} {base v w : Word} {m : Image 32} {i n : Nat}

theorem aligned_place (hbase : Aligned base) (i : Nat) : Aligned (place base i) := by
  rw [aligned_iff] at hbase ⊢
  rw [place, BitVec.toNat_add, BitVec.toNat_ofNat]
  omega

theorem place_succ (base : Word) (i : Nat) : place base (i + 1) = place base i + 4 := by
  rw [place, place, Nat.mul_add, BitVec.ofNat_add, BitVec.add_assoc]
  rfl

/-- An instruction that is executed always. -/
theorem step_word (hpc : Aligned c.pc) (hinsn : wordAt c.mem c.pc = w) (hcond : field w 28 4 = 14) :
    c.step = c.execute (decode w) := by
  rw [Core.step, Core.taken, Core.insn, Core.insnWord, load32_aligned _ _ hpc, hinsn, hcond]
  rfl

/-- `ldr pc, [pc, #-4]` goes to the word behind it. -/
theorem step_load (hpc : Aligned c.pc) (hinsn : wordAt c.mem c.pc = LDR_PC_PC_MINUS4)
    (hnext : wordAt c.mem (c.pc + 4) = v) (hv : Aligned v) : c.step = .next .arm v := by
  have hdecode : decode LDR_PC_PC_MINUS4 =
      .loadStore true false true false false 15 15 (.imm 4) := by decide +kernel
  have haddress : c.address true false 15 (.imm 4) = c.pc + 4 := by
    have hsum : c.pc + 4#32 + 4#32 = c.pc + 8#32 := BitVec.add_assoc c.pc 4#32 4#32
    change c.pc + 8#32 - 4#32 = c.pc + 4#32
    rw [← hsum, BitVec.add_sub_cancel]
  have hword : (c.pc + 4) &&& 3 = 0 := by
    change Aligned (c.pc + 4#32)
    rw [aligned_iff] at hpc ⊢
    rw [BitVec.toNat_add]
    change (c.pc.toNat + 4) % 2 ^ 32 % 4 = 0
    omega
  have hexecute : c.execute (.loadStore true false true false false 15 15 (.imm 4)) =
      if c.address true false 15 (.imm 4) &&& 3 ≠ 0 then .unpredictable
      else exchangeWrite (wordAt c.mem (c.address true false 15 (.imm 4))) := rfl
  rw [step_word hpc hinsn (by decide), hdecode, hexecute, haddress, if_neg (not_not.mpr hword),
    hnext]
  exact exchangeWrite_aligned hv

theorem step_mov (hpc : Aligned c.pc) (hinsn : wordAt c.mem c.pc = MOV_R0_1) :
    c.step = .next .arm (c.pc + 4) := by
  have hdecode : decode MOV_R0_1 = .dataProcessing .mov false 0 0 (.imm 0 1) := by decide +kernel
  rw [step_word hpc hinsn (by decide), hdecode]
  rfl

theorem step_return (hpc : Aligned c.pc) (hinsn : wordAt c.mem c.pc = BX_LR) :
    c.step = exchangeWrite c.lr := by
  have hdecode : decode BX_LR = .branchExchange false (BitVec.allOnes 12) 14 := by decide +kernel
  rw [step_word hpc hinsn (by decide), hdecode]
  rfl

section image

variable {p : Plan} {enable nk_entry : Word}

theorem image_handoff (p : Plan) (nk_entry : Word) (m : Image 32) :
    p.image nk_entry m (p.handoff + HANDOFF_JUMP) = LDR_PC_PC_MINUS4 ∧
      p.image nk_entry m (p.handoff + HANDOFF_JUMP + 1) = nk_entry := by
  refine ⟨Function.update_self _ _ _, ?_⟩
  refine (Function.update_of_ne (by omega) _ _).trans ?_
  exact Function.update_self _ _ _

/-- The handoff leaves what has been written over the battery check. -/
theorem image_check (hfound : p.Found enable m n) (hentry : nk_entry.toNat < CFW_PHYS + CFW_MAX)
    (hi : i ∈ p.check) :
    p.image nk_entry m i = MOV_R0_1 ∧ p.image nk_entry m (i + 1) = BX_LR := by
  have hcheck := hfound.check.stands hi
  have hmem : p.handoff ∈ sites handoffPattern m n := by
    rw [hfound.handoff]
    exact List.mem_singleton_self _
  have hfar := kept_handoff.2.2.1.far hcheck (mem_sites.mp hmem).2
  have hlength : batteryCheck.length = 11 := rfl
  have hkeep (k : Nat) (hk : k < 11) : p.image nk_entry m (i + k) =
      fill (patched m hold188_writes hold1582_writes p.hold188 p.hold1582) check_writes p.check
        (i + k) :=
    write_outside (handoff_sound hentry).inside (by omega)
  rw [hkeep 1 (by decide), ← Nat.add_zero i, hkeep 0 (by decide), Option.mem_def.mp hi]
  refine ⟨?_, Function.update_self _ _ _⟩
  refine (Function.update_of_ne (by omega) _ _).trans ?_
  exact Function.update_self _ _ _

end image

section control

variable {rtc_stall_fix_patch : Build} {cfw_nk_resident_install : State Bool → State Bool}
  {irq_patch ioctl_patch : Build} {enable nk_entry bytes : Word} {s : State Bool}

theorem ebootMain_plan (hentry : nk_entry.toNat < CFW_PHYS + CFW_MAX)
    (hrun : ebootMain rtc_stall_fix_patch cfw_nk_resident_install irq_patch ioctl_patch nk_entry
      enable bytes m = .ok s) :
    ∃ p : Plan, p.Found enable m ((bytes &&& ~~~3#32).toNat / 4) ∧
      s = ⟨p.image nk_entry m, enable.getLsbD 0⟩ := by
  rw [ebootMain_eq] at hrun
  by_cases henable : enable >>> 4 = 0
  · rw [if_neg (not_not.mpr henable)] at hrun
    exact (stages_ok_iff hentry).mp hrun
  · rw [if_pos henable] at hrun
    cases hrun

/-- Where the processor goes from the patched places of an image in its memory: from the handoff to
`nk_entry`, and from the battery check back to its caller. -/
structure Follows (p : Plan) (base nk_entry : Word) (c : Core) : Prop where
  handoff : c.pc = place base (p.handoff + HANDOFF_JUMP) → c.step = .next .arm nk_entry
  check : ∀ i ∈ p.check, c.pc = place base i → c.step = .next .arm (place base (i + 1))
  back : ∀ i ∈ p.check, c.pc = place base (i + 1) → c.step = exchangeWrite c.lr

/-- Whatever image the stage accepts, a processor that runs it enters the NK stage at the one place
where the image jumped to NK. -/
theorem ebootMain_follows (hentry : nk_entry.toNat < CFW_PHYS + CFW_MAX) (halign : Aligned nk_entry)
    (hbase : Aligned base)
    (hrun : ebootMain rtc_stall_fix_patch cfw_nk_resident_install irq_patch ioctl_patch nk_entry
      enable bytes m = .ok s) :
    ∃ p : Plan, p.Found enable m ((bytes &&& ~~~3#32).toNat / 4) ∧
      ∀ c : Core, Loaded c base s.mem ((bytes &&& ~~~3#32).toNat / 4 + handoffPattern.length) →
        Follows p base nk_entry c := by
  obtain ⟨p, hfound, rfl⟩ := ebootMain_plan hentry hrun
  have hsite : p.handoff < (bytes &&& ~~~3#32).toNat / 4 := by
    have hmem : p.handoff ∈ sites handoffPattern m ((bytes &&& ~~~3#32).toNat / 4) := by
      rw [hfound.handoff]
      exact List.mem_singleton_self _
    exact (mem_sites.mp hmem).1
  have hlength : handoffPattern.length = 9 := rfl
  have hjump : HANDOFF_JUMP = 7 := rfl
  refine ⟨p, hfound, fun c hload => ⟨?_, ?_, ?_⟩⟩
  · intro hpc
    obtain ⟨hinsn, hnext⟩ := image_handoff p nk_entry m
    refine step_load (hpc ▸ aligned_place hbase _) ?_ ?_ halign
    · rw [hpc, hload _ (by omega)]
      exact hinsn
    · rw [hpc, ← place_succ, hload _ (by omega)]
      exact hnext
  · intro i hi hpc
    have hin := (mem_sites.mp (hfound.check.mem hi)).1
    rw [place_succ, ← hpc]
    refine step_mov (hpc ▸ aligned_place hbase _) ?_
    rw [hpc, hload _ (by omega)]
    exact (image_check hfound hentry hi).1
  · intro i hi hpc
    have hin := (mem_sites.mp (hfound.check.mem hi)).1
    refine step_return (hpc ▸ aligned_place hbase _) ?_
    rw [hpc, hload _ (by omega)]
    exact (image_check hfound hentry hi).2

def sampleCore : Core where
  r := fun _ => 0
  pc := place 0x30038000 39
  cpsr := 0x13
  spsr := none
  mem := fun a => (samplePlan.image 0x30190020 sampleImage ((a - 0x30038000).toNat / 4) >>>
    (8 * ((a - 0x30038000).toNat % 4))).setWidth 8

theorem ebootMain_follows_run : Loaded sampleCore 0x30038000
    (samplePlan.image 0x30190020 sampleImage) 50 ∧ sampleCore.step = .next .arm 0x30190020 := by
  have hload : Loaded sampleCore 0x30038000 (samplePlan.image 0x30190020 sampleImage) 50 := by
    decide +kernel
  have hrun : ebootMain .ok id .ok .ok 0x30190020 3 164 sampleImage =
      .ok ⟨samplePlan.image 0x30190020 sampleImage, true⟩ := by
    rw [ebootMain_eq, if_neg (by decide)]
    exact (stages_ok_iff (by decide)).mpr ⟨samplePlan, sample_found, rfl⟩
  obtain ⟨p, hfound, hfollows⟩ := ebootMain_follows (by decide) (by decide)
    (show Aligned 0x30038000 by decide) hrun
  have hplace : [samplePlan.handoff] = [p.handoff] := sample_found.handoff.symm.trans hfound.handoff
  refine ⟨hload, (hfollows sampleCore hload).handoff ?_⟩
  rw [← (List.cons.inj hplace).1]
  rfl

end control

end AipcOs.CfwControl
