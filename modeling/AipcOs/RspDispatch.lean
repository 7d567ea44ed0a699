import AipcOs.RspHandlers
import AipcOs.RspBreakpoints

/-! gdbstub/rsp.c: the state of the stub, the command dispatcher and the trap entry. A command
returns to the framing code or resumes the target; rsp_resume does not come back. -/
namespace AipcOs.Rsp
open ByteMemory HexText Step TraceLog

def TRACE_CMD_LIMIT : Nat := 60
def SIG_TRAP : Word := 5

structure Stub where
  regs : ArmRegs
  mem : Mem
  bp : BpTable
  stepAddr : Word
  stepSaved : Word
  stepActive : Bool
  lastSig : Word
  traced : Nat
  trace : Trace
  out : Out

def Stub.start (regs : ArmRegs) (mem : Mem) (trace : Trace) : Stub where
  regs := regs
  mem := mem
  bp := fun _ => ⟨0, 0, false⟩
  stepAddr := 0
  stepSaved := 0
  stepActive := false
  lastSig := SIG_TRAP
  traced := 0
  trace := trace
  out := ⟨[], 0, [], false, false⟩

def Stub.idle : Stub :=
  .start ⟨fun _ => 0, 0, 0, 0x30000000, 0x13⟩ (fun _ => 0) ⟨fun _ => 0, fun _ => 0, 0⟩

inductive Exit where
  | returned
  | resumed
  deriving DecidableEq

/-- The first action of a vCont, 0 when there is none. -/
def vcontAction : List Byte → Byte
  | [] => 0
  | c :: cs => if c = 0x3B then cs.headD 0 else vcontAction cs

def handleBreakpoint (set : Bool) (p : List Byte) (s : Stub) : Stub :=
  match p with
  | 0x30 :: p =>
    let (addr, _) := parseHex (skipOne 0x2C p)
    let (ok, bp, mem) := if set then bpSet addr s.bp s.mem else bpClear addr s.bp s.mem
    { s with bp, mem, out := outStr (ascii (if ok then "OK" else "E01")) s.out }
  | _ => s

def sendCh (c : Byte) (o : Out) : Out := bulkSend (outCh c { o with buf := [] })

def resume (p : List Byte) (s : Stub) : Exit × Stub :=
  let s := if p = [] then s else { s with regs := { s.regs with pc := (parseHex p).1 } }
  let trace := tracePuts (ascii "\n") (traceHex s.regs.pc 8 (tracePuts (ascii "resume pc=0x") s.trace))
  (.resumed, { s with out := sendCh 0x2B s.out, trace })

def plantStep (next : Word) (s : Stub) : Stub :=
  if (bpLookup s.bp next).isSome then s
  else
    { s with
      stepAddr := next
      stepSaved := load32 s.mem next
      mem := store32 s.mem next BP_INSN
      stepActive := true }

/-- Plants a breakpoint at the next pc and continues. A branch to self has nowhere to stop. -/
def doStep (s : Stub) : Exit × Stub :=
  match armNextPc s.regs s.mem with
  | none => (.returned, { s with out := outFinish (outStr (ascii "E01") (outBegin s.out)) })
  | some next =>
    if next = s.regs.pc then
      (.returned, { s with
        out := outFinish (outByte (SIG_TRAP.setWidth 8) (outCh 0x53 (outBegin s.out))) })
    else
      let s := plantStep next s
      let trace := tracePuts (ascii "\n") (traceHex next 8 (tracePuts (ascii "step to 0x") s.trace))
      (.resumed, { s with trace, out := sendCh 0x2B s.out })

/-- The first commands are echoed to the trace, up to 24 bytes each. -/
def traceCmd (cmd : List Byte) (s : Stub) : Stub :=
  if s.traced < TRACE_CMD_LIMIT then
    { s with
      traced := s.traced + 1
      trace := tracePuts (ascii "\n") (tracePuts (cmd.take 24) (tracePuts (ascii "cmd ") s.trace)) }
  else s

/-- The switch of dispatch(), between out_begin and out_finish. -/
def handle (c : Byte) (p : List Byte) (s : Stub) : Stub :=
  if c = 0x3F then { s with out := outByte (s.lastSig.setWidth 8) (outCh 0x53 s.out) }
  else if c = 0x67 then { s with out := readRegs s.regs s.out }
  else if c = 0x47 then { s with regs := writeRegs s.regs p, out := outStr (ascii "OK") s.out }
  else if c = 0x6D then { s with out := readMemory s.mem p s.out }
  else if c = 0x4D then { s with mem := writeMemoryHex s.mem p, out := outStr (ascii "OK") s.out }
  else if c = 0x58 then { s with mem := writeMemoryBin s.mem p, out := outStr (ascii "OK") s.out }
  else if c = 0x71 then { s with out := handleQuery (c :: p) s.out }
  else if c = 0x76 then
    if (prefixOf (ascii "vCont?") (c :: p)).isSome then
      { s with out := outStr (ascii "vCont;c;C;s;S") s.out }
    else s
  else if c = 0x5A ∨ c = 0x7A then handleBreakpoint (c == 0x5A) p s
  else if c = 0x48 ∨ c = 0x44 ∨ c = 0x6B then { s with out := outStr (ascii "OK") s.out }
  else s

def handlePacket (c : Byte) (p : List Byte) (s : Stub) : Stub :=
  let s := handle c p { s with out := outBegin s.out }
  { s with out := outFinish s.out }

def dispatchReply (c : Byte) (p : List Byte) (s : Stub) : Stub :=
  match prefixOf (ascii "qRcmd,") (c :: p) with
  | some q => { s with out := handleMonitor s.mem s.trace q s.out }
  | none => handlePacket c p s

def vcont (c : Byte) (p : List Byte) (s : Stub) : Exit × Stub :=
  if (prefixOf (ascii "vCont;") (c :: p)).isSome then
    let act := vcontAction ((c :: p).drop 5)
    if act = 0x63 ∨ act = 0x43 then resume [] s
    else if act = 0x73 ∨ act = 0x53 then doStep s
    else (.returned, dispatchReply c p s)
  else (.returned, dispatchReply c p s)

def dispatch (cmd : List Byte) (s : Stub) : Exit × Stub :=
  let s := traceCmd cmd s
  match cmd with
  | [] => (.returned, { s with out := outFinish (outBegin s.out) })
  | c :: p =>
    if c = 0x63 ∨ c = 0x43 then resume p s
    else if c = 0x73 ∧ p = [] then doStep s
    else vcont c p s

end AipcOs.Rsp
