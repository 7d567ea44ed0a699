import AipcOs.LzxTokens
import AipcOs.LzxCalls

/-! wincedecompr.py: LZXDecoder.decompress. -/
namespace AipcOs.LzxDecoder
open ByteMemory StructBytes LzxBits LzxTable LzxLengths LzxBlock LzxCalls

def seekCur (d : Int) : Bits Unit :=
  modify fun b => { b with stream := b.stream.seekCur d }

def readBytes (n : Nat) : Bits (List Byte) := fun b =>
  some ((b.stream.read n).1, { b with stream := (b.stream.read n).2 })

def reset : Bits Unit := modify fun b => { b with buffer := 0, bits_left := 0 }

def tell : Bits Nat := return (← get).stream.pos

def readHeader (s : LZXState) : Bits LZXState := do
  if s.header_read then return s
  else
    let intel ← readBits 1
    if intel = 1 then
      let i ← readBits 16
      let j ← readBits 16
      return { s with intel_filesize := i <<< 16 ||| j, header_read := true }
    else return { s with header_read := true }

/-- What stands before the type of a block: the padding of the one before it. -/
def leaveUncompressed (s : LZXState) : Bits LZXState := do
  if s.block_type = BLOCKTYPE_UNCOMPRESSED then
    if s.block_length &&& 1 = 1 then seekCur 1
    reset
    return { s with block_type := BLOCKTYPE_INVALID }
  else return s

def readAligned (s : LZXState) : Bits LZXState := do
  if s.block_type = BLOCKTYPE_ALIGNED then
    let aligntree_len ← readEach 3 8 0 s.aligntree_len
    let (_, aligntree_table) ←
      makeDecodeTable ALIGNTREE_MAXSYMBOLS ALIGNTREE_TABLEBITS aligntree_len s.aligntree_table
    return { s with aligntree_len, aligntree_table }
  else return s

def readMain (s : LZXState) : Bits LZXState := do
  let (pretree, maintree_len) ← readLengths s.pretree s.maintree_len 0 256
  let (pretree, maintree_len) ← readLengths pretree maintree_len 256 s.main_elements
  let (_, maintree_table) ←
    makeDecodeTable MAINTREE_MAXSYMBOLS MAINTREE_TABLEBITS maintree_len s.maintree_table
  let e8 ← maintree_len[0xE8]?
  return { s with
    pretree, maintree_len, maintree_table
    intel_started := s.intel_started || e8 != 0 }

def readLen (s : LZXState) : Bits LZXState := do
  let (pretree, lentree_len) ← readLengths s.pretree s.lentree_len 0 SECONDARY_NUM_ELEMENTS
  let (_, lentree_table) ←
    makeDecodeTable LENTREE_MAXSYMBOLS LENTREE_TABLEBITS lentree_len s.lentree_table
  return { s with pretree, lentree_len, lentree_table }

/-- The start of an uncompressed block; nothing stands for `return -1`. -/
def readOffsets (s : LZXState) (end_pos : Int) : Bits (Option LZXState) := do
  if end_pos ≤ (← tell) + 4 then return none
  ensureBits 16
  if (← get).bits_left > 16 then seekCur (-2)
  let R0 := le (← readBytes 4)
  let R1 := le (← readBytes 4)
  let R2 := le (← readBytes 4)
  return some { s with intel_started := true, R0, R1, R2 }

def readBlockHeader (s : LZXState) (end_pos : Int) : Bits (Option LZXState) := do
  let s ← leaveUncompressed s
  let block_type ← readBits 3
  let block_length ← readBits 24
  let s ← readAligned { s with block_type, block_length, block_remaining := block_length }
  if s.block_type = BLOCKTYPE_VERBATIM ∨ s.block_type = BLOCKTYPE_ALIGNED then
    return some (← readLen (← readMain s))
  else if s.block_type = BLOCKTYPE_UNCOMPRESSED then readOffsets s end_pos
  else return none

def startBlock (s : LZXState) (end_pos : Int) : Bits (Option LZXState) :=
  if s.block_remaining = 0 then readBlockHeader s end_pos else return some s

/-- in_f.readinto(window[window_posn:window_posn + block_remaining]). -/
def decompressUncompress (s : LZXState) : Bits LZXState := do
  let bs ← readBytes (min s.block_remaining.toNat (s.window.length - s.window_posn))
  return { s with
    window := s.window.take s.window_posn ++ bs ++ s.window.drop (s.window_posn + bs.length)
    window_posn := (s.window_posn + s.block_remaining).toNat }

/-- The checks before a block, and the block; nothing stands for `return -1`. -/
def runBlock (s : LZXState) (start_pos in_len : Int) : Bits (Option LZXState) := do
  if (← tell) > start_pos + in_len ∧
      ((← tell) > start_pos + in_len + 2 ∨ (← get).bits_left < 16) then return none
  let s := { s with window_posn := s.window_posn &&& s.window_size - 1 }
  if (s.window_posn : Int) + s.block_remaining > s.window_size then return none
  if s.block_type = BLOCKTYPE_VERBATIM ∨ s.block_type = BLOCKTYPE_ALIGNED then
    return some (← decompressBlock s)
  else if s.block_type = BLOCKTYPE_UNCOMPRESSED then
    if (← tell) ≥ start_pos + in_len then return none
    return some (← decompressUncompress s)
  else return none

/-- while togo > 0; every round takes `togo` to 0 or below, so that one round is all there is. -/
def blocks (start_pos in_len : Int) :
    (rounds : Nat) → (togo : Int) → LZXState → Bits (Option (Int × LZXState))
  | 0, togo, s => return some (togo, s)
  | rounds + 1, togo, s => do
    if togo > 0 then
      match ← startBlock s (start_pos + in_len) with
      | none => return none
      | some s =>
        let togo' := togo - if s.block_remaining > togo then s.block_remaining else togo
        match ← runBlock s start_pos in_len with
        | none => return none
        | some s => blocks start_pos in_len rounds togo' s
    else return some (togo, s)

def pySlice (bs : List Byte) (start stop : Int) : List Byte :=
  let place (i : Int) : Nat :=
    if 0 ≤ i then min i.toNat bs.length else (i + bs.length).toNat
  (bs.take (place stop)).drop (place start)

def decompress (s : LZXState) (in_f : ByteFile) (in_len : Int) (out_f : ByteFile) (out_len : Nat) :
    Option (Int × ByteFile) := do
  let start_pos := in_f.pos
  let read : Bits (Option (Int × LZXState)) := do
    blocks start_pos in_len out_len out_len (← readHeader s)
  let (r, _) ← read (BitBuffer.new in_f)
  match r with
  | none => return (-1, out_f)
  | some (togo, s) =>
    if togo ≠ 0 then return (-1, out_f)
    else
      let start_window_pos : Int :=
        (if s.window_posn = 0 then s.window_size else s.window_posn) - (out_len : Int)
      let out_f := write out_f (pySlice s.window start_window_pos (start_window_pos + out_len))
      let out_f ← undoE8Preprocessing s.intel_started s.intel_filesize out_len out_f
      return (0, out_f)

end AipcOs.LzxDecoder
