import AipcOs.ByteMemory

/-! gdbstub/step.c: where execution goes after the instruction at g_regs.pc. -/
namespace AipcOs.Step
open ByteMemory

/-- GDB arm.core order. -/
structure ArmRegs where
  r : Fin 13 → Word
  sp : Word
  lr : Word
  pc : Word
  cpsr : Word

def CPSR_T : Word := 1#32 <<< 5

def reg (g : ArmRegs) (n : Word) : Word :=
  if n = 15 then g.pc + 8
  else if n = 14 then g.lr
  else if n = 13 then g.sp
  else g.r (Fin.ofNat 13 n.toNat)

def condTrue (cond cpsr : Word) : Bool :=
  let n := (cpsr >>> 31) &&& 1
  let z := (cpsr >>> 30) &&& 1
  let c := (cpsr >>> 29) &&& 1
  let v := (cpsr >>> 28) &&& 1
  match cond.toNat with
  | 0x0 => z != 0
  | 0x1 => z == 0
  | 0x2 => c != 0
  | 0x3 => c == 0
  | 0x4 => n != 0
  | 0x5 => n == 0
  | 0x6 => v != 0
  | 0x7 => v == 0
  | 0x8 => c != 0 && z == 0
  | 0x9 => c == 0 || z != 0
  | 0xA => n == v
  | 0xB => n != v
  | 0xC => z == 0 && n == v
  | 0xD => z != 0 || n != v
  | _ => true

/-- A shift amount of zero means 32 for LSR and ASR, and RRX for ROR. -/
def shifted (rm type amount carry : Word) : Word :=
  match type.toNat with
  | 0 => if 32 ≤ amount.toNat then 0 else rm <<< amount.toNat
  | 1 => if amount = 0 ∨ 32 ≤ amount.toNat then 0 else rm >>> amount.toNat
  | 2 =>
    if amount = 0 ∨ 32 ≤ amount.toNat then
      if rm &&& 0x80000000 ≠ 0 then 0xFFFFFFFF else 0
    else rm.sshiftRight amount.toNat
  | _ =>
    if amount = 0 then (carry <<< 31) ||| (rm >>> 1)
    else
      let amount := amount &&& 31
      if amount = 0 then rm
      else (rm >>> amount.toNat) ||| (rm <<< (32 - amount.toNat))

def operand2 (g : ArmRegs) (insn cpsr : Word) : Word :=
  let carry := (cpsr >>> 29) &&& 1
  if insn &&& (1#32 <<< 25) ≠ 0 then
    let imm := insn &&& 0xFF
    let rot := ((insn >>> 8) &&& 0xF) * 2
    if rot ≠ 0 then (imm >>> rot.toNat) ||| (imm <<< (32 - rot.toNat)) else imm
  else
    let rm := reg g (insn &&& 0xF)
    let type := (insn >>> 5) &&& 3
    let amount :=
      if insn &&& (1#32 <<< 4) ≠ 0 then reg g ((insn >>> 8) &&& 0xF) &&& 0xFF
      else (insn >>> 7) &&& 0x1F
    shifted rm type amount carry

def alu (op a b carry : Word) : Word :=
  let notCarry : Word := if carry = 0 then 1 else 0
  match op.toNat with
  | 0x0 => a &&& b
  | 0x1 => a ^^^ b
  | 0x2 => a - b
  | 0x3 => b - a
  | 0x4 => a + b
  | 0x5 => a + b + carry
  | 0x6 => a - b - notCarry
  | 0x7 => b - a - notCarry
  | 0xC => a ||| b
  | 0xD => b
  | 0xE => a &&& ~~~b
  | _ => ~~~b

/-- The loop clears one set bit a turn, so 32 turns end it. -/
def popcountLoop : Nat → Word → Word → Word
  | 0, _, n => n
  | fuel + 1, v, n => if v = 0 then n else popcountLoop fuel (v &&& (v - 1)) (n + 1)

def popcount (v : Word) : Word := popcountLoop 32 v 0

/-- The cases of arm_next_pc once the condition of `insn` holds, in the order of its tests:
B and BL, BX and BLX, a load with pc as the destination, a block load with pc in the list,
data processing with pc as the destination. -/
def armTarget (g : ArmRegs) (m : Mem) (insn : Word) : Option Word :=
  let pc := g.pc
  let cpsr := g.cpsr
  if insn &&& 0x0E000000 = 0x0A000000 then
    let off := (insn <<< 8).sshiftRight 6
    some (pc + 8 + off)
  else if insn &&& 0x0FFFFFD0 = 0x012FFF10 then
    let target := reg g (insn &&& 0xF)
    if target &&& 1 ≠ 0 then none else some (target &&& ~~~3)
  else if insn &&& 0x0C100000 = 0x04100000 ∧ (insn >>> 12) &&& 0xF = 15 then
    let base := reg g ((insn >>> 16) &&& 0xF)
    let off :=
      if insn &&& (1#32 <<< 25) ≠ 0 then
        shifted (reg g (insn &&& 0xF)) ((insn >>> 5) &&& 3) ((insn >>> 7) &&& 0x1F)
          ((cpsr >>> 29) &&& 1)
      else insn &&& 0xFFF
    let addr :=
      if insn &&& (1#32 <<< 24) ≠ 0 then
        if insn &&& (1#32 <<< 23) ≠ 0 then base + off else base - off
      else base
    some (load32 m addr &&& ~~~3)
  else if insn &&& 0x0E100000 = 0x08100000 ∧ insn &&& (1#32 <<< 15) ≠ 0 then
    let base := reg g ((insn >>> 16) &&& 0xF)
    let count := popcount (insn &&& 0xFFFF)
    let up := insn &&& (1#32 <<< 23)
    let pre := insn &&& (1#32 <<< 24)
    let addr :=
      if up ≠ 0 then base + (count - 1) * 4 + (if pre ≠ 0 then 4 else 0)
      else base - (if pre ≠ 0 then 4 else 0)
    some (load32 m addr &&& ~~~3)
  else if insn &&& 0x0C000000 = 0 ∧ (insn >>> 12) &&& 0xF = 15 then
    let op := (insn >>> 21) &&& 0xF
    if 0x8 ≤ op.toNat ∧ op.toNat ≤ 0xB then some (pc + 4)
    else
      some (alu op (reg g ((insn >>> 16) &&& 0xF)) (operand2 g insn cpsr)
        ((cpsr >>> 29) &&& 1) &&& ~~~3)
  else some (pc + 4)

/-- `none` is the return value 0, `some next` the return value 1. Only BLX(imm) branches in
the unconditional space, and it enters Thumb. -/
def armNextPc (g : ArmRegs) (m : Mem) : Option Word :=
  if g.cpsr &&& CPSR_T ≠ 0 then none
  else
    let insn := load32 m g.pc
    let cond := insn >>> 28
    if cond = 0xF then none
    else if !condTrue cond g.cpsr then some (g.pc + 4)
    else armTarget g m insn

end AipcOs.Step
