import AipcOs.ByteMemory
import AipcOs.WordBits

/-! Control flow of ARMv5TEJ in ARM state. Every instruction word decodes to its class with
the fields that decide where execution goes; `execute` gives the pc and the instruction set
state after it. Aborts are not part of this model: every access succeeds. -/
namespace AipcOs.Armv5
open ByteMemory WordBits

abbrev Reg := BitVec 4

inductive Isa where
  | arm | thumb | jazelle
  deriving DecidableEq, Repr

/-- Registers of the current mode. `spsr` is `none` in user and system mode. -/
structure Core where
  r : Fin 15 → Word
  pc : Word
  cpsr : Word
  spsr : Option Word
  mem : Mem

/-- r15 reads as the address of the instruction plus 8. -/
def Core.reg (c : Core) (n : Reg) : Word :=
  if h : n.toNat < 15 then c.r ⟨n.toNat, h⟩ else c.pc + 8

def Core.flagN (c : Core) : Bool := c.cpsr.getLsbD 31
def Core.flagZ (c : Core) : Bool := c.cpsr.getLsbD 30
def Core.flagC (c : Core) : Bool := c.cpsr.getLsbD 29
def Core.flagV (c : Core) : Bool := c.cpsr.getLsbD 28

inductive AluOp where
  | and | eor | sub | rsb | add | adc | sbc | rsc | tst | teq | cmp | cmn | orr | mov | bic | mvn
  deriving DecidableEq, Repr

def AluOp.ofBits (b : BitVec 4) : AluOp :=
  match b.toNat with
  | 0 => .and | 1 => .eor | 2 => .sub | 3 => .rsb | 4 => .add | 5 => .adc | 6 => .sbc | 7 => .rsc
  | 8 => .tst | 9 => .teq | 10 => .cmp | 11 => .cmn | 12 => .orr | 13 => .mov | 14 => .bic
  | _ => .mvn

def AluOp.isTest : AluOp → Bool
  | .tst | .teq | .cmp | .cmn => true
  | _ => false

def AluOp.result (op : AluOp) (a b : Word) (carry : Bool) : Word :=
  let borrow : Word := if carry then 0 else 1
  match op with
  | .and | .tst => a &&& b
  | .eor | .teq => a ^^^ b
  | .sub | .cmp => a - b
  | .rsb => b - a
  | .add | .cmn => a + b
  | .adc => a + b + (if carry then 1 else 0)
  | .sbc => a - b - borrow
  | .rsc => b - a - borrow
  | .orr => a ||| b
  | .mov => b
  | .bic => a &&& ~~~b
  | .mvn => ~~~b

inductive ShiftType where
  | lsl | lsr | asr | ror
  deriving DecidableEq, Repr

def ShiftType.ofBits (b : BitVec 2) : ShiftType :=
  match b.toNat with
  | 0 => .lsl | 1 => .lsr | 2 => .asr | _ => .ror

/-- Shift by an immediate. LSR #0 and ASR #0 encode a shift by 32, ROR #0 encodes RRX. -/
def ShiftType.byImm (t : ShiftType) (x : Word) (n : BitVec 5) (carry : Bool) : Word :=
  match t with
  | .lsl => x <<< n.toNat
  | .lsr => if n = 0 then 0 else x >>> n.toNat
  | .asr => if n = 0 then (if x.msb then BitVec.allOnes 32 else 0) else x.sshiftRight n.toNat
  | .ror => if n = 0 then (if carry then 0x80000000 else 0) ||| x >>> 1 else x.rotateRight n.toNat

inductive Shifter where
  | imm (rot : BitVec 4) (v : BitVec 8)
  | shiftImm (rm : Reg) (t : ShiftType) (n : BitVec 5)
  | shiftReg (rm rs : Reg) (t : ShiftType)
  deriving DecidableEq, Repr

inductive Offset where
  | imm (v : BitVec 12)
  | scaled (rm : Reg) (t : ShiftType) (n : BitVec 5)
  deriving DecidableEq, Repr

inductive Insn where
  | branch (link : Bool) (offset : BitVec 24)
  | branchExchange (link : Bool) (sbo : BitVec 12) (rm : Reg)
  | branchExchangeImm (half : Bool) (offset : BitVec 24)
  | branchJazelle (sbo : BitVec 12) (rm : Reg)
  | dataProcessing (op : AluOp) (s : Bool) (rn rd : Reg) (src : Shifter)
  | loadStore (load byte pre up wb : Bool) (rn rd : Reg) (off : Offset)
  | block (load pre up s wb : Bool) (rn : Reg) (list : BitVec 16)
  | multiply (acc : Bool) (rd rn rs rm : Reg)
  | multiplyLong (rdHi rdLo rs rm : Reg)
  | swap (rn rd rm : Reg)
  | halfword (rn rd : Reg)
  | doubleword (rn rd : Reg)
  | statusRead (rd : Reg)
  | statusWrite
  | countZeros (rd rm : Reg)
  | saturating (rn rd rm : Reg)
  | halfMultiply (rd rn rs rm : Reg)
  | preload
  | coprocessor
  | breakpoint
  | softwareInterrupt
  | undefined
  deriving DecidableEq, Repr

def decodeExtension (w : Word) : Insn :=
  let rn := field w 16 4
  let rd := field w 12 4
  let rs := field w 8 4
  let rm := field w 0 4
  match w.getLsbD 6, w.getLsbD 5 with
  | false, false =>
    if w.getLsbD 24 then
      if w.getLsbD 23 || w.getLsbD 21 || w.getLsbD 20 then .undefined else .swap rn rd rm
    else if w.getLsbD 23 then .multiplyLong rn rd rs rm
    else if w.getLsbD 22 then .undefined
    else .multiply (w.getLsbD 21) rn rd rs rm
  | false, true => .halfword rn rd
  | true, _ => if w.getLsbD 20 then .halfword rn rd else .doubleword rn rd

/-- The comparisons without the S bit encode the miscellaneous instructions. -/
def decodeMisc (w : Word) : Insn :=
  let rn := field w 16 4
  let rd := field w 12 4
  let rs := field w 8 4
  let rm := field w 0 4
  let op := field w 21 2
  if w.getLsbD 7 then .halfMultiply rn rd rs rm
  else match w.getLsbD 6, w.getLsbD 5, w.getLsbD 4 with
  | false, false, false => if w.getLsbD 21 then .statusWrite else .statusRead rd
  | false, false, true =>
    if op = 1 then .branchExchange false (field w 8 12) rm
    else if op = 3 then .countZeros rd rm else .undefined
  | false, true, false => if op = 1 then .branchJazelle (field w 8 12) rm else .undefined
  | false, true, true => if op = 1 then .branchExchange true (field w 8 12) rm else .undefined
  | true, false, true => .saturating rn rd rm
  | true, true, true => if op = 1 then .breakpoint else .undefined
  | true, _, false => .undefined

def isMisc (w : Word) : Bool := w.getLsbD 24 && !w.getLsbD 23 && !w.getLsbD 20

def decode (w : Word) : Insn :=
  let rn := field w 16 4
  let rd := field w 12 4
  let rm := field w 0 4
  let shift := ShiftType.ofBits (field w 5 2)
  let amount := field w 7 5
  let alu := Insn.dataProcessing (AluOp.ofBits (field w 21 4)) (w.getLsbD 20) rn rd
  let transfer := Insn.loadStore (w.getLsbD 20) (w.getLsbD 22) (w.getLsbD 24) (w.getLsbD 23)
    (w.getLsbD 21) rn rd
  match w.getLsbD 27, w.getLsbD 26, w.getLsbD 25 with
  | false, false, false =>
    if w.getLsbD 7 && w.getLsbD 4 then decodeExtension w
    else if isMisc w then decodeMisc w
    else if w.getLsbD 4 then alu (.shiftReg rm (field w 8 4) shift)
    else alu (.shiftImm rm shift amount)
  | false, false, true =>
    if isMisc w then if w.getLsbD 21 then .statusWrite else .undefined
    else alu (.imm (field w 8 4) (field w 0 8))
  | false, true, false => transfer (.imm (field w 0 12))
  | false, true, true =>
    if w.getLsbD 4 then .undefined else transfer (.scaled rm shift amount)
  | true, false, false =>
    .block (w.getLsbD 20) (w.getLsbD 24) (w.getLsbD 23) (w.getLsbD 22) (w.getLsbD 21) rn
      (field w 0 16)
  | true, false, true => .branch (w.getLsbD 24) (field w 0 24)
  | true, true, false => .coprocessor
  | true, true, true => if w.getLsbD 24 then .softwareInterrupt else .coprocessor

def decodeUnconditional (w : Word) : Insn :=
  match w.getLsbD 27, w.getLsbD 26, w.getLsbD 25 with
  | true, false, true => .branchExchangeImm (w.getLsbD 24) (field w 0 24)
  | true, true, false => .coprocessor
  | true, true, true => if w.getLsbD 24 then .undefined else .coprocessor
  | false, true, _ =>
    if w.getLsbD 24 && w.getLsbD 22 && !w.getLsbD 21 && w.getLsbD 20 && field w 12 4 = 15
    then .preload else .undefined
  | _, _, _ => .undefined

inductive Outcome where
  | unpredictable
  | exception
  | next (isa : Isa) (pc : Word)
  deriving DecidableEq, Repr

/-- A plain write of r15 must be word aligned before ARMv6. -/
def branchWrite (v : Word) : Outcome :=
  if v &&& 3 = 0 then .next .arm v else .unpredictable

/-- BX, and on ARMv5 also the loads: bit 0 selects Thumb. -/
def exchangeWrite (v : Word) : Outcome :=
  if v.getLsbD 0 then .next .thumb (v &&& ~~~1)
  else if v.getLsbD 1 then .unpredictable
  else .next .arm v

theorem exchangeWrite_aligned {v : Word} (hv : Aligned v) : exchangeWrite v = .next .arm v := by
  have hbit (k : Nat) (hk : k < 2) : v.getLsbD k = false := by
    have hzero : (v &&& 3#32).getLsbD k = false := by
      rw [show v &&& 3#32 = 0#32 from hv]
      exact BitVec.getLsbD_zero
    rw [BitVec.getLsbD_and] at hzero
    have hthree : ∀ k < 2, (3#32).getLsbD k = true := by decide
    rw [hthree k hk, Bool.and_true] at hzero
    exact hzero
  rw [exchangeWrite, hbit 0 (by decide), hbit 1 (by decide)]
  rfl

/-- Exception return: the SPSR becomes the CPSR and selects the state. -/
def restoreWrite (spsr : Option Word) (v : Word) : Outcome :=
  match spsr with
  | none => .unpredictable
  | some s =>
    if s.getLsbD 24 then .next .jazelle v
    else if s.getLsbD 5 then .next .thumb (v &&& ~~~1)
    else branchWrite v

def Core.shifter (c : Core) : Shifter → Word
  | .imm rot v => (v.setWidth 32).rotateRight (2 * rot.toNat)
  | .shiftImm rm t n => t.byImm (c.reg rm) n c.flagC
  | .shiftReg _ _ _ => 0

def Core.offset (c : Core) : Offset → Word
  | .imm v => v.setWidth 32
  | .scaled rm t n => t.byImm (c.reg rm) n c.flagC

def Offset.usesPc : Offset → Bool
  | .imm _ => false
  | .scaled rm _ _ => rm == 15

/-- The address of an LDR or STR. Post-indexed forms use the base unchanged. -/
def Core.address (c : Core) (pre up : Bool) (rn : Reg) (off : Offset) : Word :=
  if pre then if up then c.reg rn + c.offset off else c.reg rn - c.offset off
  else c.reg rn

def listSize (list : BitVec 16) : Nat := ((List.range 16).filter list.getLsbD).length

def Core.blockStart (c : Core) (pre up : Bool) (rn : Reg) (list : BitVec 16) : Word :=
  let span := BitVec.ofNat 32 (4 * listSize list)
  match up, pre with
  | true, false => c.reg rn
  | true, true => c.reg rn + 4
  | false, false => c.reg rn - span + 4
  | false, true => c.reg rn - span

/-- Registers load in ascending order, so the last word of the block belongs to r15. Bits 1:0
of the address are ignored by the access itself. -/
def Core.blockTop (c : Core) (pre up : Bool) (rn : Reg) (list : BitVec 16) : Word :=
  c.blockStart pre up rn list + BitVec.ofNat 32 (4 * (listSize list - 1))

def branchTarget (pc : Word) (offset : BitVec 24) : Word :=
  pc + 8#32 + (offset.signExtend 32 <<< 2 : Word)

def Core.execute (c : Core) (i : Insn) : Outcome :=
  let following := Outcome.next .arm (c.pc + 4)
  match i with
  | .branch _ offset => .next .arm (branchTarget c.pc offset)
  | .branchExchange link sbo rm =>
    if sbo ≠ BitVec.allOnes 12 ∨ (link ∧ rm = 15) then .unpredictable
    else exchangeWrite (c.reg rm)
  | .branchExchangeImm half offset =>
    .next .thumb (branchTarget c.pc offset + if half then 2 else 0)
  | .branchJazelle sbo rm =>
    if sbo ≠ BitVec.allOnes 12 ∨ rm = 15 then .unpredictable else .next .jazelle (c.reg rm)
  | .dataProcessing op s rn rd src =>
    match src with
    | .shiftReg rm rs _ =>
      if rd = 15 ∨ rn = 15 ∨ rm = 15 ∨ rs = 15 then .unpredictable else following
    | src =>
      if op.isTest ∨ rd ≠ 15 then following
      else
        let v := op.result (c.reg rn) (c.shifter src) c.flagC
        if s then restoreWrite c.spsr v else branchWrite v
  | .loadStore load byte pre up wb rn rd off =>
    if !load ∨ rd ≠ 15 then following
    else if byte ∨ (!pre ∧ wb) ∨ (rn = 15 ∧ (!pre ∨ wb)) ∨ off.usesPc then .unpredictable
    else if c.address pre up rn off &&& 3 ≠ 0 then .unpredictable
    else exchangeWrite (wordAt c.mem (c.address pre up rn off))
  | .block load pre up s _ rn list =>
    if !load ∨ !list.getLsbD 15 then following
    else if rn = 15 then .unpredictable
    else
      let v := wordAt c.mem (c.blockTop pre up rn list &&& ~~~3)
      if s then restoreWrite c.spsr v else exchangeWrite v
  | .multiply acc rd rn rs rm =>
    if rd = 15 ∨ rs = 15 ∨ rm = 15 ∨ (if acc then rn = 15 else rn ≠ 0) then .unpredictable
    else following
  | .multiplyLong rdHi rdLo rs rm =>
    if rdHi = 15 ∨ rdLo = 15 ∨ rs = 15 ∨ rm = 15 then .unpredictable else following
  | .swap rn rd rm => if rn = 15 ∨ rd = 15 ∨ rm = 15 then .unpredictable else following
  | .halfword _ rd => if rd = 15 then .unpredictable else following
  | .doubleword _ rd =>
    if rd.getLsbD 0 then .exception else if rd = 14 then .unpredictable else following
  | .statusRead rd => if rd = 15 then .unpredictable else following
  | .countZeros rd rm => if rd = 15 ∨ rm = 15 then .unpredictable else following
  | .saturating rn rd rm => if rn = 15 ∨ rd = 15 ∨ rm = 15 then .unpredictable else following
  | .halfMultiply rd _ rs rm =>
    if rd = 15 ∨ rs = 15 ∨ rm = 15 then .unpredictable else following
  | .statusWrite | .preload | .coprocessor => following
  | .breakpoint | .softwareInterrupt | .undefined => .exception

def Core.condPassed (c : Core) (cond : BitVec 4) : Bool :=
  match cond.toNat with
  | 0 => c.flagZ
  | 1 => !c.flagZ
  | 2 => c.flagC
  | 3 => !c.flagC
  | 4 => c.flagN
  | 5 => !c.flagN
  | 6 => c.flagV
  | 7 => !c.flagV
  | 8 => c.flagC && !c.flagZ
  | 9 => !c.flagC || c.flagZ
  | 10 => c.flagN == c.flagV
  | 11 => c.flagN != c.flagV
  | 12 => !c.flagZ && c.flagN == c.flagV
  | 13 => c.flagZ || c.flagN != c.flagV
  | _ => true

def Core.insnWord (c : Core) : Word := load32 c.mem c.pc

def Core.insn (c : Core) : Insn :=
  if field c.insnWord 28 4 = 15 then decodeUnconditional c.insnWord else decode c.insnWord

def Core.taken (c : Core) : Bool := c.condPassed (field c.insnWord 28 4)

def Core.step (c : Core) : Outcome :=
  if c.taken then c.execute c.insn else .next .arm (c.pc + 4)

def Insn.restoresSpsr : Insn → Bool
  | .dataProcessing op s _ rd _ => s && !op.isTest && rd == 15
  | .block load _ _ s _ _ list => load && s && list.getLsbD 15
  | _ => false

def Core.loadedPc (c : Core) : Insn → Option Word
  | .loadStore true _ pre up _ rn rd off =>
    if rd = 15 then some (wordAt c.mem (c.address pre up rn off)) else none
  | .block true pre up false _ rn list =>
    if list.getLsbD 15 then some (wordAt c.mem (c.blockTop pre up rn list &&& ~~~3)) else none
  | _ => none

def Core.leavesByLoadOrJazelle (c : Core) (i : Insn) : Bool :=
  match i with
  | .branchJazelle _ _ => true
  | i => match c.loadedPc i with
    | some v => v.getLsbD 0
    | none => false

def Core.loadsAligned (c : Core) : Insn → Prop
  | .loadStore true false pre up _ rn _ off => c.address pre up rn off &&& 3 = 0
  | .block true _ _ _ _ rn _ => c.reg rn &&& 3 = 0
  | _ => True

/-- What an instruction that writes r15 leaves behind. In `state` the instruction set stands for
the T and J bits. `following` is every instruction that goes on at the next word, `otherMode` an
exception return that brings in the registers of another mode. -/
inductive Effect where
  | unpredictable
  | exception
  | following
  | otherMode
  | state (isa : Isa) (c : Core)

def Core.setReg (c : Core) (n : Reg) (v : Word) : Core :=
  { c with r := fun i => if i.val = n.toNat then v else c.r i }

def Core.lr (c : Core) : Word := c.r 14

def Core.linked (c : Core) (link : Bool) : Core := if link then c.setReg 14 (c.pc + 4) else c

def Core.restore (c : Core) (isa : Isa) : Effect :=
  match c.spsr with
  | none => .unpredictable
  | some s => if field s 0 5 = field c.cpsr 0 5 then .state isa { c with cpsr := s } else .otherMode

def Core.writeBack (c : Core) (pre up wb : Bool) (rn : Reg) (off : Offset) : Core :=
  if !pre || wb then
    c.setReg rn (if up then c.reg rn + c.offset off else c.reg rn - c.offset off)
  else c

def Core.blockAddress (c : Core) (pre up : Bool) (rn : Reg) (list : BitVec 16) (i : Nat) : Word :=
  c.blockStart pre up rn list +
    BitVec.ofNat 32 (4 * ((List.range i).filter list.getLsbD).length)

def Core.loadBlock (c : Core) (pre up : Bool) (rn : Reg) (list : BitVec 16) : Core :=
  { c with
    r := fun i =>
      if list.getLsbD i.val then wordAt c.mem (c.blockAddress pre up rn list i.val &&& ~~~3)
      else c.r i }

/-- An LDM with W writes the base back; the base is unpredictable if it is also loaded. -/
def Core.blockBack (c : Core) (up wb : Bool) (rn : Reg) (list : BitVec 16) : Core :=
  let span := BitVec.ofNat 32 (4 * listSize list)
  if wb then c.setReg rn (if up then c.reg rn + span else c.reg rn - span) else c

def Core.commit (c : Core) (i : Insn) (isa : Isa) (p : Word) : Effect :=
  match i with
  | .branch link _ => .state isa { c.linked link with pc := p }
  | .branchExchange link _ _ => .state isa { c.linked link with pc := p }
  | .branchExchangeImm _ _ => .state isa { c.linked true with pc := p }
  | .branchJazelle _ _ => .state isa { c with pc := p }
  | .dataProcessing op s _ rd _ =>
    if op.isTest ∨ rd ≠ 15 then .following
    else if s then { c with pc := p }.restore isa
    else .state isa { c with pc := p }
  | .loadStore load _ pre up wb rn rd off =>
    if !load ∨ rd ≠ 15 then .following
    else .state isa { c.writeBack pre up wb rn off with pc := p }
  | .block load pre up s wb rn list =>
    if !load ∨ !list.getLsbD 15 then .following
    else if wb ∧ list.getLsbD rn.toNat then .unpredictable
    else
      let moved := { (c.loadBlock pre up rn list).blockBack up wb rn list with pc := p }
      if s then moved.restore isa else .state isa moved
  | _ => .following

def Core.effect (c : Core) (i : Insn) : Effect :=
  match c.execute i with
  | .unpredictable => .unpredictable
  | .exception => .exception
  | .next isa p => c.commit i isa p

def Core.effectStep (c : Core) : Effect :=
  if c.taken then c.effect c.insn else .following

end AipcOs.Armv5
