import AipcOs.RspOut
import AipcOs.TraceLog
import AipcOs.Step

/-! gdbstub/rsp.c: the handlers that answer a command, as functions of the reply buffer.
Memory is the target's; the stub's own buffers and the trace windows are not part of it. -/
namespace AipcOs.Rsp
open ByteMemory HexText Step TraceLog

def targetXml : List Byte :=
  [ "<?xml version=\"1.0\"?>",
    "<!DOCTYPE target SYSTEM \"gdb-target.dtd\">",
    "<target version=\"1.0\">",
    "<architecture>arm</architecture>",
    "<feature name=\"org.gnu.gdb.arm.core\">",
    "<reg name=\"r0\" bitsize=\"32\"/>",
    "<reg name=\"r1\" bitsize=\"32\"/>",
    "<reg name=\"r2\" bitsize=\"32\"/>",
    "<reg name=\"r3\" bitsize=\"32\"/>",
    "<reg name=\"r4\" bitsize=\"32\"/>",
    "<reg name=\"r5\" bitsize=\"32\"/>",
    "<reg name=\"r6\" bitsize=\"32\"/>",
    "<reg name=\"r7\" bitsize=\"32\"/>",
    "<reg name=\"r8\" bitsize=\"32\"/>",
    "<reg name=\"r9\" bitsize=\"32\"/>",
    "<reg name=\"r10\" bitsize=\"32\"/>",
    "<reg name=\"r11\" bitsize=\"32\"/>",
    "<reg name=\"r12\" bitsize=\"32\"/>",
    "<reg name=\"sp\" bitsize=\"32\" type=\"data_ptr\"/>",
    "<reg name=\"lr\" bitsize=\"32\"/>",
    "<reg name=\"pc\" bitsize=\"32\" type=\"code_ptr\"/>",
    "<reg name=\"cpsr\" bitsize=\"32\" regnum=\"25\"/>",
    "</feature>",
    "</target>" ].flatMap ascii

def xferReply (off len : Word) (o : Out) : Out :=
  let total := targetXml.length
  if total ≤ off.toNat then outStr (ascii "l") o
  else
    let n := min (min (total - off.toNat) len.toNat) (PACKET_SIZE - 16)
    outStr ((targetXml.drop off.toNat).take n)
      (outCh (if off.toNat + n < total then 0x6D else 0x6C) o)

def handleQuery (p : List Byte) (o : Out) : Out :=
  match prefixOf (ascii "qSupported") p with
  | some _ =>
    outStr (ascii ";qXfer:features:read+;vContSupported+")
      (outHex (BitVec.ofNat 32 PACKET_SIZE) (outStr (ascii "PacketSize=") o))
  | none =>
    match prefixOf (ascii "qXfer:features:read:target.xml:") p with
    | some q =>
      let (off, q) := parseHex q
      let (len, _) := parseHex (skipOne 0x2C q)
      xferReply off len o
    | none =>
      if 8 ≤ p.length ∧ p[1]? = some 0x41 ∧ p[2]? = some 0x74 ∧ p[3]? = some 0x74 then
        outStr (ascii "1") o
      else if p.length = 2 ∧ p[1]? = some 0x43 then outStr (ascii "QC1") o
      else if 12 ≤ p.length ∧ p[1]? = some 0x66 ∧ p[2]? = some 0x54 then outStr (ascii "m1") o
      else if 12 ≤ p.length ∧ p[1]? = some 0x73 ∧ p[2]? = some 0x54 then outStr (ascii "l") o
      else o

def outBytes : List Byte → Out → Out
  | [], o => o
  | b :: bs, o => outBytes bs (outByte b o)

def sendOutput (text : List Byte) (ack : Bool) (o : Out) : Out :=
  outFinish (outBytes text (outCh 0x4F (outBeginAck ack o)))

def sendText (s : List Byte) (ack : Bool) (o : Out) : Out :=
  outFinish (outBytes s (outBeginAck ack o))

/-- Console packets of at most MONITOR_CHUNK bytes. Each turn sends at least one byte, so the
length of the text bounds the turns. -/
def sendRegionLoop : Nat → List Byte → Bool → Out → Out × Bool
  | 0, _, ack, o => (o, ack)
  | fuel + 1, data, ack, o =>
    if data = [] then (o, ack)
    else sendRegionLoop fuel (data.drop MONITOR_CHUNK) false
      (sendOutput (data.take MONITOR_CHUNK) ack o)

def sendRegion (data : List Byte) (o : Out) : Out :=
  let (o, ack) := sendRegionLoop data.length data true o
  outFinish (outStr (ascii "OK") (outBeginAck ack o))

def monCh (c : Byte) (o : Out) : Out := outByte c o

def monStr : List Byte → Out → Out
  | [], o => o
  | c :: cs, o => monStr cs (monCh c o)

def monWordLoop (v : Word) : Nat → Out → Out
  | 0, o => o
  | k + 1, o => monWordLoop v k (monCh (hexdigit ((v >>> (k * 4)) &&& 0xF)) o)

def monWord (v : Word) (o : Out) : Out := monWordLoop v 8 (monStr (ascii "0x") o)

def monDec (v : Nat) (o : Out) : Out := monStr (decDigits v false pow10) o

def md32Word (m : Mem) (addr : Word) (count i : Nat) (o : Out) : Out :=
  let at_ := addr + BitVec.ofNat 32 (i * 4)
  let o := if i % 4 = 0 then monCh 0x3A (monWord at_ o) else o
  let o := monWord (load32 m at_) (monCh 0x20 o)
  if i % 4 = 3 ∨ i + 1 = count then monCh 0x0A o else o

def md32Loop (m : Mem) (addr : Word) (count : Nat) (o : Out) : Out :=
  (List.range count).foldl (fun o i => md32Word m addr count i o) o

def monitorMd32 (m : Mem) (p : List Byte) (o : Out) : Out :=
  match skipSpaces p with
  | 0x30 :: 0x78 :: p =>
    let (addr, p) := parseHex p
    let addr := addr &&& ~~~3
    let (count, _) := parseDec (skipSpaces p)
    let count := if count = 0 then 4 else count.toNat
    let o := outBeginAck true o
    if MD32_MAX < count then
      let o := monStr (ascii " words\n") (monDec MD32_MAX (monStr (ascii "clamped to ") o))
      outFinish (md32Loop m addr MD32_MAX o)
    else outFinish (md32Loop m addr count o)
  | _ => sendText (ascii "md32: address must be hex with an 0x prefix\n") true o

/-- qRcmd arguments decoded into the 63 usable bytes of `cmd`. -/
def monitorCmd : Nat → List Byte → List Byte
  | room + 1, h :: l :: rest =>
    ((hexval h <<< 4) ||| hexval l).setWidth 8 :: monitorCmd room rest
  | _, _ => []

def handleMonitor (m : Mem) (t : Trace) (p : List Byte) (o : Out) : Out :=
  let cmd := monitorCmd 63 p
  if 5 < cmd.length ∧ equals (cmd.take 5) (ascii "md32 ") then monitorMd32 m (cmd.drop 5) o
  else if equals cmd (ascii "trace") then sendRegion (region t.live (traceUsed t)) o
  else if equals cmd (ascii "oldtrace") then sendRegion (region t.prev (tracePrevUsed t)) o
  else sendText (ascii "commands: trace, oldtrace, md32 0x<addr> [<words>]\n") true o

/-- Single bytes until g_out_len is a multiple of four. Gives the next address and the bytes
left. -/
def readAlign (m : Mem) (a : Word) : Nat → Out → Word × Nat × Out
  | 0, o => (a, 0, o)
  | r + 1, o =>
    if o.buf.length % 4 ≠ 0 then readAlign m (a + 1) r (outByte (m a) o) else (a, r + 1, o)

def readPairs (m : Mem) (a : Word) : Nat → Out → Word × Nat × Out
  | r + 2, o => readPairs m (a + 2) r (outPair (m a) (m (a + 1)) o)
  | r, o => (a, r, o)

def readTail (m : Mem) (a : Word) : Nat → Out → Out
  | 0, o => o
  | r + 1, o => readTail m (a + 1) r (outByte (m a) o)

def readMemory (m : Mem) (p : List Byte) (o : Out) : Out :=
  let (addr, p) := parseHex p
  let (len, _) := parseHex (skipOne 0x2C p)
  let len := min len.toNat ((OUT_SIZE - 16) / 2)
  let (a, r, o) := readAlign m addr len o
  let (a, r, o) := readPairs m a r o
  readTail m a r o

def writeHexLoop : Nat → List Byte → Word → Mem → Mem
  | r + 1, h :: l :: rest, a, m =>
    writeHexLoop r rest (a + 1) (store m a (((hexval h <<< 4) ||| hexval l).setWidth 8))
  | _, _, _, m => m

def parseWrite (p : List Byte) : Word × Word × List Byte :=
  let (addr, p) := parseHex p
  let (len, p) := parseHex (skipOne 0x2C p)
  (addr, len, skipOne 0x3A p)

def writeMemoryHex (m : Mem) (p : List Byte) : Mem :=
  let (addr, len, p) := parseWrite p
  writeHexLoop len.toNat p addr m

/-- One byte of the X data, with its escape undone. An escape at the very end stays. -/
def takeByte : List Byte → Option (Byte × List Byte)
  | [] => none
  | b :: rest =>
    if b = 0x7D then
      match rest with
      | [] => some (b, [])
      | e :: rest => some (e ^^^ 0x20, rest)
    else some (b, rest)

def takeWord : List Byte → Option (Word × List Byte)
  | b0 :: b1 :: b2 :: b3 :: rest =>
    if b0 ≠ 0x7D ∧ b1 ≠ 0x7D ∧ b2 ≠ 0x7D ∧ b3 ≠ 0x7D then some (leWord b0 b1 b2 b3, rest) else none
  | _ => none

/-- Each turn consumes a byte of the packet, so its length bounds the turns. `r` is len - i. -/
def writeBinLoop : Nat → List Byte → Nat → Word → Mem → Mem
  | 0, _, _, _, m => m
  | fuel + 1, p, r, a, m =>
    if r = 0 then m
    else
      match (if a &&& 3 = 0 ∧ 4 ≤ r then takeWord p else none) with
      | some (w, rest) => writeBinLoop fuel rest (r - 4) (a + 4) (store32 m a w)
      | none =>
        match takeByte p with
        | some (b, rest) => writeBinLoop fuel rest (r - 1) (a + 1) (store m a b)
        | none => m

def writeMemoryBin (m : Mem) (p : List Byte) : Mem :=
  let (addr, len, p) := parseWrite p
  writeBinLoop p.length p len.toNat addr m

def outWords : List Word → Out → Out
  | [], o => o
  | v :: vs, o => outWords vs (outWord v o)

def readRegs (g : ArmRegs) (o : Out) : Out :=
  outWord g.cpsr (outWord g.pc (outWord g.lr (outWord g.sp (outWords (List.ofFn g.r) o))))

def setSlot (g : ArmRegs) (i : Nat) (v : Word) : ArmRegs :=
  if h : i < 13 then { g with r := Function.update g.r ⟨i, h⟩ v }
  else if i = 13 then { g with sp := v }
  else if i = 14 then { g with lr := v }
  else if i = 15 then { g with pc := v }
  else { g with cpsr := v }

def parseSlot (v : Word) : Nat → List Byte → Word × List Byte
  | j + 1, h :: l :: rest =>
    parseSlot (v ||| (((hexval h <<< 4) ||| hexval l) <<< (8 * (3 - j)))) j rest
  | _, p => (v, p)

def writeRegsLoop : Nat → List Byte → ArmRegs → ArmRegs
  | 0, _, g => g
  | k + 1, p, g =>
    let (v, p) := parseSlot 0 4 p
    writeRegsLoop k p (setSlot g (16 - k) v)

def writeRegs (g : ArmRegs) (p : List Byte) : ArmRegs := writeRegsLoop 17 p g

end AipcOs.Rsp
