import AipcOs.ByteFrames
import AipcOs.RspDispatch
import AipcOs.StepCorrect
import AipcOs.WordPatch

/-! gdbstub/resume.S: rsp_resume loads g_regs into the processor and leaves for its pc. The pc goes
through the word below the target's stack. -/
namespace AipcOs.Rsp
open ByteMemory ByteFrames WordBits WordPatch Armv5 Step StepDecode StepCorrect

/-- A `fixed` word answers loads and keeps no store. -/
inductive Access where
  | ram | fixed | abort
  deriving DecidableEq

/-- What rsp_resume meets: the banked status registers by mode, the bus, and where the stub's own
g_regs and rsp_resume lie. -/
structure Machine where
  spsr : BitVec 5 → Option Word
  access : Word → Access
  g_regs : Word
  rsp_resume : Word
  regs_aligned : Aligned g_regs
  code_aligned : Aligned rsp_resume
  regs_ram : ∀ i < 17, access (g_regs + BitVec.ofNat 32 (4 * i)) = .ram
  code_ram : ∀ i < 9, access (rsp_resume + BitVec.ofNat 32 (4 * i)) = .ram

def MODES : List (BitVec 5) := [0x10, 0x11, 0x12, 0x13, 0x17, 0x1B, 0x1F]

/-- `msr cpsr_cxsf`: reserved bits stay zero, T and J cannot be set, the mode exists. -/
def MsrTakes (v : Word) : Prop := v &&& 0x07FFFF20 = 0 ∧ field v 0 5 ∈ MODES

instance (v : Word) : Decidable (MsrTakes v) := inferInstanceAs (Decidable (_ ∧ _))

namespace Machine

/-- `str r1, [sp, #-4]`. -/
def spill (M : Machine) (g : ArmRegs) (m : Mem) : Mem :=
  if M.access (wordOf (g.sp - 4)) = .ram then store32 m (g.sp - 4) g.pc else m

/-- `ldmia r0, {r0-r12}`, behind that store. -/
def loaded (M : Machine) (g : ArmRegs) : ArmRegs :=
  { g with
    r := fun i =>
      if M.g_regs + BitVec.ofNat 32 (4 * i.val) = wordOf (g.sp - 4) then g.pc else g.r i }

/-- The store hits an instruction that is already fetched. -/
def overwritten (M : Machine) (g : ArmRegs) : Prop :=
  wordOf (g.sp - 4) = M.rsp_resume + 28 ∨ wordOf (g.sp - 4) = M.rsp_resume + 32

instance (M : Machine) (g : ArmRegs) : Decidable (M.overwritten g) :=
  inferInstanceAs (Decidable (_ ∨ _))

/-- The core in front of the last instruction. -/
def entered (M : Machine) (g : ArmRegs) (m : Mem) : Core :=
  { core (M.loaded g) (M.spsr (field g.cpsr 0 5)) (M.spill g m) with pc := M.rsp_resume + 32 }

/-- `ldr pc, [sp, #-4]`. -/
def leave (M : Machine) (g : ArmRegs) (m : Mem) : Effect :=
  (M.entered g m).effect (.loadStore true false true false false 13 15 (.imm 4))

def rspResume (M : Machine) (g : ArmRegs) (m : Mem) : Effect :=
  if ¬ MsrTakes g.cpsr then .unpredictable
  else if M.access (wordOf (g.sp - 4)) = .abort then .exception
  else if M.overwritten g then .unpredictable
  else M.leave g m

structure Takes (M : Machine) (g : ArmRegs) (pc : Word) : Prop where
  status : MsrTakes g.cpsr
  stack : Aligned g.sp
  target : Aligned pc
  bus : M.access (g.sp - 4) ≠ .abort
  code : g.sp - 4 ≠ M.rsp_resume + 28 ∧ g.sp - 4 ≠ M.rsp_resume + 32
  block : ∀ i : Fin 13, M.g_regs + BitVec.ofNat 32 (4 * i.val) = g.sp - 4 → g.r i = pc

theorem exchangeWrite_arm {v pc : Word} :
    exchangeWrite v = .next .arm pc ↔ Aligned pc ∧ v = pc := by
  constructor
  · intro h
    obtain ⟨-, -, rfl, hv⟩ | ⟨hisa, -⟩ := exchangeWrite_next h
    · exact ⟨hv, rfl⟩
    · cases hisa
  · intro h
    obtain ⟨hv, rfl⟩ := h
    exact exchangeWrite_aligned hv

theorem aligned_below {a : Word} : Aligned (a - 4) ↔ Aligned a := by
  rw [aligned_iff, aligned_iff]
  bv_omega

theorem wordOf_aligned_self {a : Word} (ha : Aligned a) : wordOf a = a := aligned_mask a ha

/-- An LDR of pc that stays in ARM state. -/
theorem effect_ldr_pc {c c' : Core} :
    c.effect (.loadStore true false true false false 13 15 (.imm 4)) = .state .arm c' ↔
      Aligned (c.r 13 - 4) ∧ Aligned (wordAt c.mem (c.r 13 - 4)) ∧
        c' = { c with pc := wordAt c.mem (c.r 13 - 4) } := by
  by_cases hal : Aligned (c.r 13 - 4)
  · have hexec : c.execute (.loadStore true false true false false 13 15 (.imm 4)) =
        exchangeWrite (wordAt c.mem (c.r 13 - 4)) := if_neg (not_not.mpr hal)
    rw [Core.effect, hexec]
    constructor
    · intro h
      cases hw : exchangeWrite (wordAt c.mem (c.r 13 - 4)) with
      | unpredictable =>
        rw [hw] at h
        cases h
      | exception =>
        rw [hw] at h
        cases h
      | next isa p =>
        rw [hw] at h
        cases h
        obtain ⟨hp, rfl⟩ := exchangeWrite_arm.1 hw
        exact ⟨hal, hp, rfl⟩
    · intro h
      obtain ⟨-, hp, rfl⟩ := h
      rw [exchangeWrite_aligned hp]
      rfl
  · have hexec : c.execute (.loadStore true false true false false 13 15 (.imm 4)) =
        .unpredictable := if_pos hal
    rw [Core.effect, hexec]
    constructor
    · intro h
      cases h
    · intro h
      exact absurd h.1 hal

/-- rsp_resume goes to `pc` in ARM state with the registers of `g`. -/
def Resumes (M : Machine) (g : ArmRegs) (m : Mem) (pc : Word) : Prop :=
  ∃ c, M.rspResume g m = .state .arm c ∧ c.pc = pc ∧ c.r = (core g none m).r ∧ c.cpsr = g.cpsr

theorem spill_ram {M : Machine} {g : ArmRegs} (m : Mem) (hsp : Aligned g.sp)
    (h : M.access (g.sp - 4) = .ram) : wordAt (M.spill g m) (g.sp - 4) = g.pc := by
  have hal := aligned_below.2 hsp
  rw [spill, wordOf_aligned_self hal, if_pos h, store32_aligned _ _ _ hal, wordAt_storeWord]

theorem spill_fixed {M : Machine} {g : ArmRegs} (m : Mem) (hsp : Aligned g.sp)
    (h : M.access (g.sp - 4) ≠ .ram) : M.spill g m = m := by
  rw [spill, wordOf_aligned_self (aligned_below.2 hsp), if_neg h]

/-- The block that the registers are loaded from is memory. -/
theorem block_ram (M : Machine) (i : Fin 13) :
    M.access (M.g_regs + BitVec.ofNat 32 (4 * i.val)) = .ram :=
  M.regs_ram i.val (by omega)

theorem loaded_r (M : Machine) (g : ArmRegs) (i : Fin 13) :
    (M.loaded g).r i =
      if M.g_regs + BitVec.ofNat 32 (4 * i.val) = wordOf (g.sp - 4) then g.pc else g.r i := rfl

theorem entered_r {M : Machine} {g : ArmRegs} (m : Mem)
    (h : ∀ i : Fin 13, (M.loaded g).r i = g.r i) : (M.entered g m).r = (core g none m).r := by
  have hr : M.loaded g = g := by
    cases g
    simp only [loaded, ArmRegs.mk.injEq, and_true]
    exact funext h
  rw [entered, hr]
  rfl

theorem resumes_iff (M : Machine) (g : ArmRegs) (m : Mem) (pc : Word) :
    M.Resumes g m pc ↔ M.Takes g pc ∧ wordAt (M.spill g m) (g.sp - 4) = pc := by
  constructor
  · intro h
    obtain ⟨c, hres, hpc, hr, -⟩ := h
    unfold rspResume at hres
    split_ifs at hres with hstatus hbus hcode
    obtain ⟨hsp, htarget, rfl⟩ := effect_ldr_pc.1 hres
    change Aligned (g.sp - 4) at hsp
    change Aligned (wordAt (M.spill g m) (g.sp - 4)) at htarget
    change wordAt (M.spill g m) (g.sp - 4) = pc at hpc
    have hself := wordOf_aligned_self hsp
    rw [hself] at hbus
    rw [overwritten, hself, not_or] at hcode
    rw [hpc] at htarget
    refine ⟨⟨hstatus, aligned_below.1 hsp, htarget, hbus, hcode, fun i hi => ?_⟩, hpc⟩
    have hram := M.block_ram i
    rw [hi] at hram
    have hslot : (M.loaded g).r i = g.pc := by rw [loaded_r, hself, if_pos hi]
    have hkept : (M.loaded g).r i = g.r i := by
      have hri := congrFun hr ⟨i.val, by omega⟩
      simpa only [entered, core, i.isLt, dif_pos] using hri
    rw [← hkept, hslot, ← spill_ram m (aligned_below.1 hsp) hram, hpc]
  · intro h
    obtain ⟨ht, hpc⟩ := h
    have hself := wordOf_aligned_self (aligned_below.2 ht.stack)
    have hcode : ¬ M.overwritten g := by
      rw [overwritten, hself, not_or]
      exact ht.code
    have hr (i : Fin 13) : (M.loaded g).r i = g.r i := by
      rw [loaded_r, hself]
      split
      · rename_i hi
        have hram := M.block_ram i
        rw [hi] at hram
        rw [ht.block i hi, ← hpc, spill_ram m ht.stack hram]
      · rfl
    refine ⟨{ M.entered g m with pc := pc }, ?_, rfl, entered_r m hr, rfl⟩
    rw [rspResume, if_neg (not_not.mpr ht.status), hself, if_neg ht.bus, if_neg hcode, leave,
      effect_ldr_pc]
    change Aligned (g.sp - 4) ∧ Aligned (wordAt (M.spill g m) (g.sp - 4)) ∧
      _ = { M.entered g m with pc := wordAt (M.spill g m) (g.sp - 4) }
    rw [hpc]
    exact ⟨aligned_below.2 ht.stack, ht.target, rfl⟩

end Machine

def ddrMachine : Machine where
  spsr := fun _ => none
  access := fun a => if a &&& 0xFC000000 = 0x30000000 then .ram else .fixed
  g_regs := 0x30800000
  rsp_resume := 0x30800100
  regs_aligned := by decide
  code_aligned := by decide
  regs_ram := by decide
  code_ram := by decide

def stackedStub : Stub :=
  .start ⟨fun _ => 0, 0x30001000, 0, 0x30000000, 0x13⟩ (fun _ => 0) Stub.idle.trace

end AipcOs.Rsp
