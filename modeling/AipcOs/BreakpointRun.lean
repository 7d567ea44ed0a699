import AipcOs.BreakpointTable
import AipcOs.RspTarget

/-! Runs of the stub and its target: packets while the target is stopped, target stores while it
runs, traps. What the three writers of code words (breakpoints, the step breakpoint and the trap
handler) and rsp_resume leave in memory. -/
namespace AipcOs.Rsp
open ByteMemory HexText RspWire Step TraceLog WordPatch WordBits

section aligned

theorem aligned_add {a b : Word} (ha : Aligned a) (hb : Aligned b) : Aligned (a + b) := by
  rw [aligned_iff] at ha hb ⊢
  bv_omega

end aligned

/-- What commands and traps do to the target is seen in these fields. -/
structure Core where
  regs : ArmRegs
  mem : Mem
  bp : BpTable
  stepAddr : Word
  stepSaved : Word
  stepActive : Bool

def Stub.core (s : Stub) : Core := ⟨s.regs, s.mem, s.bp, s.stepAddr, s.stepSaved, s.stepActive⟩

def hostData : List Byte → Word × List Byte
  | 0x4D :: p => ((parseWrite p).1, paired (parseWrite p).2.1.toNat (parseWrite p).2.2)
  | 0x58 :: p => ((parseWrite p).1, unescaped (parseWrite p).2.1.toNat (parseWrite p).2.2)
  | _ => (0, [])

def hostWrite (cmd : List Byte) (m : Mem) : Mem := storeBytes m (hostData cmd).1 (hostData cmd).2

def bpAddr (q : List Byte) : Word := (parseHex (skipOne 0x2C q)).1

inductive Effect (c : Byte) (p : List Byte) (k : Core) : Core → Prop
  | write : Effect c p k { k with mem := hostWrite (c :: p) k.mem }
  | regs : c = 0x47 → Effect c p k { k with regs := writeRegs k.regs p }
  | set (q : List Byte) : c = 0x5A → p = 0x30 :: q →
      Effect c p k { k with bp := (bpSet (bpAddr q) k.bp k.mem).2.1,
                            mem := (bpSet (bpAddr q) k.bp k.mem).2.2 }
  | clear (q : List Byte) : c = 0x7A → p = 0x30 :: q →
      Effect c p k { k with bp := (bpClear (bpAddr q) k.bp k.mem).2.1,
                            mem := (bpClear (bpAddr q) k.bp k.mem).2.2 }

def Core.lift (k : Core) : Core :=
  if k.stepActive then { k with mem := store32 k.mem k.stepAddr k.stepSaved, stepActive := false }
  else k

def Core.stepSet (k : Core) : Set Word := { a | k.stepActive = true ∧ k.stepAddr = a }

def Core.planted (k : Core) : Set Word := activeSet k.bp ∪ k.stepSet

structure Core.Fits (k : Core) (running : Bool) (orig : Mem) : Prop where
  tracks : Tracks orig k.stepSet k.bp k.mem
  step : k.stepActive = true →
    running = true ∧ Aligned k.stepAddr ∧ k.stepAddr ∉ activeSet k.bp ∧
      k.stepSaved = wordAt orig k.stepAddr
  pc : running = false → Aligned k.regs.pc

/-- Packets of a run: breakpoints at aligned addresses, no register write that misaligns the pc,
no host write that touches a planted word. -/
structure Allowed (k : Core) (cmd : List Byte) : Prop where
  set : ∀ q, cmd = 0x5A :: 0x30 :: q → Aligned (bpAddr q)
  regs : ∀ p, cmd = 0x47 :: p → Aligned (writeRegs k.regs p).pc
  write : ∀ i < (hostData cmd).2.length, wordOf ((hostData cmd).1 + BitVec.ofNat 32 i) ∉ k.planted

def Machine.spillAt (M : Machine) (g : ArmRegs) : Set Word :=
  { a | wordOf (g.sp - 4) = a ∧ M.access a = .ram }

/-- The stub and its target. `own` is the memory as the target's and the host's own writes alone
would have made it, `orig` has the stores of rsp_resume as well, which went to the words `spilled`. -/
structure Sys where
  stub : Stub
  running : Bool
  orig : Mem
  own : Mem
  spilled : Set Word

def Sys.leave (M : Machine) (s : Sys) (t : Stub) : Sys where
  stub := { t with mem := M.spill t.regs t.mem }
  running := true
  orig := M.spill t.regs s.orig
  own := s.own
  spilled := s.spilled ∪ M.spillAt t.regs

structure Sys.Sound (s : Sys) : Prop where
  fits : s.stub.core.Fits s.running s.orig
  own : ∀ x, wordOf x ∉ s.spilled → s.orig x = s.own x

end AipcOs.Rsp
