import AipcOs.HexText

/-! gdbstub/rsp.c: number parsing and the reply buffer. `Out.buf` is g_out[0 .. g_out_len);
`sent` collects what musb_bulk_send was given. Two ghost fields record what the C code would do
silently: a character that out_ch drops, and an out_pair store that is misaligned or ends past
the buffer. -/
namespace AipcOs.Rsp
open ByteMemory HexText

def PACKET_SIZE : Nat := 0x2000
def CMD_SIZE : Nat := PACKET_SIZE
def OUT_SIZE : Nat := PACKET_SIZE + 16
def MD32_MAX : Nat := 0x100
def MONITOR_CHUNK : Nat := (PACKET_SIZE - 8) / 2

def hexval (c : Byte) : Word :=
  if 0x30 ≤ c.toNat ∧ c.toNat ≤ 0x39 then BitVec.ofNat 32 (c.toNat - 0x30)
  else if 0x61 ≤ c.toNat ∧ c.toNat ≤ 0x66 then BitVec.ofNat 32 (c.toNat - 0x61 + 10)
  else if 0x41 ≤ c.toNat ∧ c.toNat ≤ 0x46 then BitVec.ofNat 32 (c.toNat - 0x41 + 10)
  else 0xFFFFFFFF

def hexdigit (v : Word) : Byte :=
  if v.toNat < 10 then BitVec.ofNat 8 (0x30 + v.toNat) else BitVec.ofNat 8 (0x61 + v.toNat - 10)

def parseHexLoop (v : Word) : List Byte → Word × List Byte
  | [] => (v, [])
  | c :: cs =>
    if hexval c = 0xFFFFFFFF then (v, c :: cs)
    else parseHexLoop ((v <<< 4) ||| hexval c) cs

def parseHex (p : List Byte) : Word × List Byte := parseHexLoop 0 p

def parseDecLoop (v : Word) : List Byte → Word × List Byte
  | [] => (v, [])
  | c :: cs =>
    if 0x30 ≤ c.toNat ∧ c.toNat ≤ 0x39 then
      parseDecLoop (v * 10 + BitVec.ofNat 32 (c.toNat - 0x30)) cs
    else (v, c :: cs)

def parseDec (p : List Byte) : Word × List Byte := parseDecLoop 0 p

def skipOne (c : Byte) : List Byte → List Byte
  | [] => []
  | x :: xs => if x = c then xs else x :: xs

def skipSpaces : List Byte → List Byte
  | [] => []
  | x :: xs => if x = 0x20 then skipSpaces xs else x :: xs

def prefixOf : List Byte → List Byte → Option (List Byte)
  | [], p => some p
  | _ :: _, [] => none
  | s :: ss, c :: cs => if c = s then prefixOf ss cs else none

def equals : List Byte → List Byte → Bool
  | [], s => s.isEmpty
  | _ :: _, [] => false
  | c :: cs, s :: ss => if c = s then equals cs ss else false

structure Out where
  buf : List Byte
  bodyStart : Nat
  sent : List (List Byte)
  dropped : Bool
  badPair : Bool
  deriving DecidableEq

def outCh (c : Byte) (o : Out) : Out :=
  if o.buf.length < OUT_SIZE then { o with buf := o.buf ++ [c] } else { o with dropped := true }

def outStr : List Byte → Out → Out
  | [], o => o
  | c :: cs, o => outStr cs (outCh c o)

def outByte (b : Byte) (o : Out) : Out :=
  outCh (hexdigit ((b &&& 0xF).setWidth 32)) (outCh (hexdigit ((b >>> 4).setWidth 32)) o)

def hexShift (v : Word) : Nat → Nat
  | 0 => 0
  | k + 1 => if (v >>> (4 * (k + 1))) &&& 0xF = 0 then hexShift v k else k + 1

def outHexLoop (v : Word) : Nat → Out → Out
  | 0, o => outCh (hexdigit (v &&& 0xF)) o
  | k + 1, o => outHexLoop v k (outCh (hexdigit ((v >>> (4 * (k + 1))) &&& 0xF)) o)

def outHex (v : Word) (o : Out) : Out := outHexLoop v (hexShift v 7) o

def outPair (b0 b1 : Byte) (o : Out) : Out :=
  let w := leWord (hexdigit ((b0 >>> 4).setWidth 32)) (hexdigit ((b0 &&& 0xF).setWidth 32))
    (hexdigit ((b1 >>> 4).setWidth 32)) (hexdigit ((b1 &&& 0xF).setWidth 32))
  { o with
    buf := o.buf ++ wordBytes w
    badPair := o.badPair || o.buf.length % 4 != 0 || decide (OUT_SIZE < o.buf.length + 4) }

def outWord (v : Word) (o : Out) : Out :=
  outByte (v.extractLsb' 24 8) (outByte (v.extractLsb' 16 8) (outByte (v.extractLsb' 8 8)
    (outByte (v.extractLsb' 0 8) o)))

def outBeginAck (ack : Bool) (o : Out) : Out :=
  let o := { o with buf := [] }
  let o := if ack then outCh 0x2B o else o
  let o := outCh 0x24 o
  { o with bodyStart := o.buf.length }

def outBegin (o : Out) : Out := outBeginAck true o

def byteSum (bs : List Byte) : Word := bs.foldl (fun s b => s + b.setWidth 32) 0

def bulkSend (o : Out) : Out := { o with sent := o.sent ++ [o.buf] }

def outFinish (o : Out) : Out :=
  let sum := byteSum (o.buf.drop o.bodyStart)
  bulkSend (outByte (sum.setWidth 8) (outCh 0x23 o))

end AipcOs.Rsp
