import AipcOs.LzxLengths
import AipcOs.Lz77

/-! wincedecompr.py: LZXState and __decompress_block. -/
namespace AipcOs.LzxBlock
open ByteMemory StructBytes LzxBits LzxTable LzxSymbols LzxLengths

def NUM_CHARS : Nat := 256
def NUM_PRIMARY_LENGTHS : Nat := 7
def MIN_MATCH : Nat := 2
def SECONDARY_NUM_ELEMENTS : Nat := 249

def BLOCKTYPE_INVALID : Nat := 0
def BLOCKTYPE_VERBATIM : Nat := 1
def BLOCKTYPE_ALIGNED : Nat := 2
def BLOCKTYPE_UNCOMPRESSED : Nat := 3

def MAINTREE_MAXSYMBOLS : Nat := 664
def MAINTREE_TABLEBITS : Nat := 11
def MAINTREE_MAX_CODEWORD : Nat := 16
def LENTREE_MAXSYMBOLS : Nat := 249
def LENTREE_TABLEBITS : Nat := 10
def LENTREE_MAX_CODEWORD : Nat := 16
def ALIGNTREE_MAXSYMBOLS : Nat := 8
def ALIGNTREE_TABLEBITS : Nat := 7
def ALIGNTREE_MAX_CODEWORD : Nat := 8
def LENTABLE_SAFETY : Nat := 64

def position_slots : List Nat := [30, 32, 34, 36, 38, 42, 50, 66, 98, 162, 290]

def extra_bits : List Nat :=
  [0, 0, 0, 0, 1, 1, 2, 2, 3, 3, 4, 4, 5, 5, 6, 6, 7, 7, 8, 8,
   9, 9, 10, 10, 11, 11, 12, 12, 13, 13, 14, 14, 15, 15, 16, 16,
   17, 17, 17, 17, 17, 17, 17, 17, 17, 17, 17, 17, 17, 17, 17]

def position_base : List Nat :=
  [0, 1, 2, 3, 4, 6, 8, 12, 16, 24, 32, 48, 64, 96, 128, 192, 256, 384, 512,
   768, 1024, 1536, 2048, 3072, 4096, 6144, 8192, 12288, 16384, 24576, 32768,
   49152, 65536, 98304, 131072, 196608, 262144, 393216, 524288, 655360,
   786432, 917504, 1048576, 1179648, 1310720, 1441792, 1572864, 1703936,
   1835008, 1966080, 2097152]

structure LZXState where
  R0 : Nat
  R1 : Nat
  R2 : Nat
  main_elements : Nat
  header_read : Bool
  block_type : Nat
  block_length : Nat
  block_remaining : Int
  intel_filesize : Nat
  intel_started : Bool
  pretree : Pretree
  maintree_table : List Nat
  maintree_len : List Nat
  lentree_table : List Nat
  lentree_len : List Nat
  aligntree_table : List Nat
  aligntree_len : List Nat
  window_size : Nat
  window : List Byte
  window_posn : Nat

def zeroTable (nsyms nbits : Nat) : List Nat := List.replicate (1 <<< nbits + nsyms <<< 1) 0
def zeroLen (nsyms : Nat) : List Nat := List.replicate (nsyms + LENTABLE_SAFETY) 0

/-- LZXState.__init__; nothing stands for UnsupportedWindowSizeRange. -/
def LZXState.new (window : Nat) : Option LZXState :=
  if window < 15 ∨ window > 21 then none
  else do
    let slots ← position_slots[window - 15]?
    return {
      R0 := 1, R1 := 1, R2 := 1
      main_elements := NUM_CHARS + slots <<< 3
      header_read := false
      block_type := BLOCKTYPE_INVALID
      block_length := 0, block_remaining := 0
      intel_filesize := 0, intel_started := false
      pretree := ⟨zeroTable PRETREE_MAXSYMBOLS PRETREE_TABLEBITS, zeroLen PRETREE_MAXSYMBOLS⟩
      maintree_table := zeroTable MAINTREE_MAXSYMBOLS MAINTREE_TABLEBITS
      maintree_len := zeroLen MAINTREE_MAXSYMBOLS
      lentree_table := zeroTable LENTREE_MAXSYMBOLS LENTREE_TABLEBITS
      lentree_len := zeroLen LENTREE_MAXSYMBOLS
      aligntree_table := zeroTable ALIGNTREE_MAXSYMBOLS ALIGNTREE_TABLEBITS
      aligntree_len := zeroLen ALIGNTREE_MAXSYMBOLS
      window_size := 1 <<< (window &&& 0x1f)
      window := List.replicate (1 <<< (window &&& 0x1f)) 0xDC
      window_posn := 0 }

def pyIndex (n : Nat) (i : Int) : Option Nat :=
  if 0 ≤ i then (if i < n then some i.toNat else none)
  else if -(n : Int) ≤ i then some (i + n).toNat else none

def putByte (window : List Byte) (i : Nat) (v : Byte) : Option (List Byte) :=
  if i < window.length then some (window.set i v) else none

/-- for _ in range(n): window[rundest] = window[runsrc]; both take one step. -/
def copyRun : (n rundest : Nat) → (runsrc : Int) → List Byte → Option (List Byte)
  | 0, _, _, window => some window
  | n + 1, rundest, runsrc, window => do
    let i ← pyIndex window.length runsrc
    let v ← window[i]?
    copyRun n (rundest + 1) (runsrc + 1) (← putByte window rundest v)

def readHuffSymMaintree (s : LZXState) : Bits Nat :=
  readHuffSym s.maintree_table s.maintree_len MAINTREE_MAXSYMBOLS MAINTREE_TABLEBITS
    MAINTREE_MAX_CODEWORD

def readHuffSymLentree (s : LZXState) : Bits Nat :=
  readHuffSym s.lentree_table s.lentree_len LENTREE_MAXSYMBOLS LENTREE_TABLEBITS
    LENTREE_MAX_CODEWORD

def readHuffSymAligntree (s : LZXState) : Bits Nat :=
  readHuffSym s.aligntree_table s.aligntree_len ALIGNTREE_MAXSYMBOLS ALIGNTREE_TABLEBITS
    ALIGNTREE_MAX_CODEWORD

def matchLength (s : LZXState) (main_element : Nat) : Bits Nat := do
  let match_length := main_element &&& NUM_PRIMARY_LENGTHS
  if match_length = NUM_PRIMARY_LENGTHS then
    let length_footer ← readHuffSymLentree s
    return match_length + length_footer + MIN_MATCH
  else return match_length + MIN_MATCH

def offsetBits (s : LZXState) (extra : Nat) : Bits Nat := do
  if s.block_type = BLOCKTYPE_ALIGNED ∧ extra ≥ 3 then
    let verbatim_bits ← readBits (extra - 3)
    let aligned_bits ← readHuffSymAligntree s
    return verbatim_bits <<< 3 + aligned_bits
  else readBits extra

def matchOffset (s : LZXState) (slot : Nat) : Bits (Nat × LZXState) := do
  if slot > 2 then
    let extra ← extra_bits[slot]?
    let footer ← offsetBits s extra
    let base ← position_base[slot]?
    let match_offset := base + footer - 2
    return (match_offset, { s with R2 := s.R1, R1 := s.R0, R0 := match_offset })
  else if slot = 0 then return (s.R0, s)
  else if slot = 1 then return (s.R1, { s with R1 := s.R0, R0 := s.R1 })
  else return (s.R2, { s with R2 := s.R0, R0 := s.R2 })

def copyWindow (s : LZXState) (match_offset match_length : Nat) : Option (List Byte) :=
  if s.window_posn ≥ match_offset then
    copyRun match_length s.window_posn ((s.window_posn : Int) - match_offset) s.window
  else
    let runsrc : Int := s.window_posn + ((s.window_size : Int) - match_offset)
    let copy_length := match_offset - s.window_posn
    if copy_length < match_length then do
      let window ← copyRun copy_length s.window_posn runsrc s.window
      copyRun (match_length - copy_length) (s.window_posn + copy_length) 0 window
    else copyRun match_length s.window_posn runsrc s.window

def copyMatch (s : LZXState) (match_offset match_length : Nat) : Option LZXState := do
  let window ← copyWindow s match_offset match_length
  return { s with
    block_remaining := s.block_remaining - match_length
    window, window_posn := s.window_posn + match_length }

/-- One round of __decompress_block. -/
def decompressElement (s : LZXState) : Bits LZXState := do
  let main_element ← readHuffSymMaintree s
  if main_element < NUM_CHARS then
    let window ← putByte s.window s.window_posn (BitVec.ofNat 8 main_element)
    return { s with
      window, window_posn := s.window_posn + 1, block_remaining := s.block_remaining - 1 }
  else
    let main_element := main_element - NUM_CHARS
    let match_length ← matchLength s main_element
    let (match_offset, s) ← matchOffset s (main_element >>> 3)
    copyMatch s match_offset match_length

/-- while self.state.block_remaining > 0; every round takes one at least. -/
def decompressRounds : (rounds : Nat) → LZXState → Bits LZXState
  | 0, s => return s
  | rounds + 1, s => do
    if s.block_remaining > 0 then decompressRounds rounds (← decompressElement s) else return s

def decompressBlock (s : LZXState) : Bits LZXState :=
  decompressRounds s.block_remaining.toNat s

end AipcOs.LzxBlock
