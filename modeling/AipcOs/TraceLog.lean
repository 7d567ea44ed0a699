import AipcOs.HexText

/-! gdbstub/trace.c: the two log windows of TRACE_SIZE bytes and the write cursor, as offsets
from TRACE_BASE and TRACE_PREV. -/
namespace AipcOs.TraceLog
open ByteMemory HexText

def TRACE_SIZE : Nat := 0x10000

structure Trace where
  live : Nat → Byte
  prev : Nat → Byte
  put : Nat

def tracePutc (c : Byte) (t : Trace) : Trace :=
  if t.put < TRACE_SIZE - 1 then
    { t with live := Function.update t.live t.put c, put := t.put + 1 }
  else t

/-- A C string ends at its first NUL. -/
def tracePuts : List Byte → Trace → Trace
  | [], t => t
  | c :: cs, t => if c = 0 then t else tracePuts cs (tracePutc c t)

def upperDigit (v : Nat) : Byte := BitVec.ofNat 8 (if v < 10 then 0x30 + v else 0x41 + v - 10)

def traceHex (value : Word) : Nat → Trace → Trace
  | 0, t => t
  | i + 1, t => traceHex value i (tracePutc (upperDigit ((value >>> (i * 4)) &&& 0xF).toNat) t)

def pow10 : List Nat :=
  [1000000000, 100000000, 10000000, 1000000, 100000, 10000, 1000, 100, 10, 1]

/-- Decimal digits without leading zeros. The repeated subtraction of the source leaves quotient
and remainder; the last digit always prints. -/
def decDigits (v : Nat) (started : Bool) : List Nat → List Byte
  | [] => []
  | p :: ps =>
    let n := v / p
    if n ≠ 0 ∨ started ∨ ps = [] then BitVec.ofNat 8 (0x30 + n) :: decDigits (v % p) true ps
    else decDigits (v % p) started ps

def traceDec (value : Word) (t : Trace) : Trace :=
  (decDigits value.toNat false pow10).foldl (fun t c => tracePutc c t) t

def traceUsed (t : Trace) : Nat := t.put

/-- The offset of the first NUL, searched a word at a time. -/
def prevUsedFrom (t : Trace) : Nat → Nat → Nat
  | 0, _ => TRACE_SIZE
  | fuel + 1, i =>
    if t.prev (4 * i) = 0 then 4 * i
    else if t.prev (4 * i + 1) = 0 then 4 * i + 1
    else if t.prev (4 * i + 2) = 0 then 4 * i + 2
    else if t.prev (4 * i + 3) = 0 then 4 * i + 3
    else prevUsedFrom t fuel (i + 1)

def tracePrevUsed (t : Trace) : Nat := prevUsedFrom t (TRACE_SIZE / 4) 0

def region (w : Nat → Byte) (len : Nat) : List Byte := (List.range len).map w

end AipcOs.TraceLog
