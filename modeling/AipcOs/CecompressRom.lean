import AipcOs.Cecompress
import AipcOs.LzxRoundTrip

/-! wincedecompr.py: CEDecompressROM, and cecompress.py: what is done with it. -/
namespace AipcOs.CecompressRom
open ByteMemory OffsetTable StructBytes MsbBits Cecompress
open LzxFormat hiding encode
open LzxBits LzxBlock LzxTokens LzxCalls LzxDecoder LzxRoundTrip

/-- The status, the size and the buffer; a memoryview takes bytes only for as many of its own. -/
def binDecompressRom (read_buffer : List Byte) (amount : Int) (decompressed_buffer : List Byte) :
    Option (Int × Nat × List Byte) := do
  let (window_size, f) := (ByteFile.mk read_buffer 0).read 4
  let (decompressed_size, f) := f.read 4
  let (_, f) := f.read 8
  let decoder ← LZXState.new (le window_size)
  let size := le decompressed_size
  let (status, out_f) ← decompress decoder f amount ⟨[], 0⟩ size
  let bytes := out_f.data.take size
  if bytes.length = min size decompressed_buffer.length then
    return (status, size, bytes ++ decompressed_buffer.drop size)
  else none

def romBlocks (read_buffer : List Byte) (step : Nat) :
    (blocks : Nat) → (uncompressed_size : Int) →
    (input_position compressed_size output_position blocksize : Nat) → (out : List Byte) →
    Option (Int × List Byte)
  | 0, _, _, _, _, blocksize, out => return (blocksize, out)
  | blocks + 1, uncompressed_size, input_position, compressed_size, output_position, blocksize,
      out => do
    if uncompressed_size = 0 then return (blocksize, out)
    else
      let current_position := le (slice read_buffer input_position 3)
      let (status, bytes_processed, view) ← binDecompressRom (read_buffer.drop compressed_size)
        (current_position - compressed_size) (out.drop output_position)
      let out := out.take output_position ++ view
      if status ≠ 0 then return (-1, out)
      else
        romBlocks read_buffer step blocks (uncompressed_size - bytes_processed)
          (input_position + 3) current_position (output_position + bytes_processed * step)
          (blocksize + bytes_processed) out

/-- The size, or -1, and the buffer. -/
def ceDecompressROM (read_buffer : List Byte) (compressed_size : Nat)
    (decompressed_buffer : List Byte) (uncompressed_size : Int) (skip step blocksize : Nat) :
    Option (Int × List Byte) :=
  let block_bits := (if blocksize = 4096 then 1 else 0) * 2 + 10
  if step ≠ 1 ∧ step ≠ 2 then some (-1, decompressed_buffer)
  else if skip &&& (1 <<< block_bits) - 1 = 0 ∧ compressed_size > 2 then
    let total := le (slice read_buffer 0 3)
    let num_blocks := if total = 0 then 2 else ((total - 1) >>> (block_bits &&& 0x1f)) + 2
    let next_position := skip >>> (block_bits &&& 0x1f)
    if ¬(num_blocks * 3 ≤ compressed_size ∧ next_position < num_blocks) then
      some (-1, decompressed_buffer)
    else
      let current_position :=
        if next_position ≠ 0 then le (slice read_buffer (next_position * 3) 3)
        else num_blocks * 3
      romBlocks read_buffer step (num_blocks - (next_position + 1)) uncompressed_size
        ((next_position + 1) * 3) current_position 0 0 decompressed_buffer
  else some (-1, decompressed_buffer)

def decompressCecompress (data : List Byte) (expected_size : Option Int)
    (uncompressed_size : Nat) : Option (List Byte) := do
  let output := List.replicate (uncompressed_size + CECOMPRESS_BLOCK_SIZE) 0
  let (size, output) ←
    ceDecompressROM data data.length output uncompressed_size 0 1 CECOMPRESS_BLOCK_SIZE
  if size < 0 then none
  else if size ≠ uncompressed_size then none
  else if expected_size.any (fun e => decide (size > e)) then none
  else return output.take size.toNat

/-- Nothing stands for an exception of the layout check; the others are caught. -/
def maybeDecompressCecompress (data : List Byte) (expected_size : Option Int) :
    Option (Option (List Byte)) :=
  match (parseCecompressLayout data expected_size).outcome with
  | .indexError => none
  | .rejected => some none
  | .layout uncompressed_size => some (decompressCecompress data expected_size uncompressed_size)

structure Packed where
  window_bits : Nat
  intel : Option Nat
  body : Body
  unused : Nat
  pad : List Byte

namespace Packed

def header (b : Packed) : List Byte :=
  pack 4 b.window_bits ++ (pack 4 b.body.content.length ++
    (pack 4 (LzxFormat.encode b.intel b.body).length ++ pack 4 b.unused))

def bytes (b : Packed) : List Byte := b.header ++ (LzxFormat.encode b.intel b.body ++ b.pad)

def chunk (b : Packed) : List Byte := undoCalls (b.intel.getD 0) b.body.content

structure Valid (b : Packed) : Prop where
  window_bits : 15 ≤ b.window_bits ∧ b.window_bits ≤ 21
  intel : ∀ f ∈ b.intel, f ≤ 2 ^ 31
  body : b.body.Valid b.window_bits
  size : 0 < b.body.content.length ∧ b.body.content.length ≤ CECOMPRESS_BLOCK_SIZE

theorem header_length (b : Packed) : b.header.length = 16 := by
  simp only [header, List.length_append, pack_length]

theorem chunk_length (b : Packed) : b.chunk.length = b.body.content.length :=
  undoCalls_length

end Packed

theorem u32_pack {front : List Byte} {off : Nat} (hoff : front.length = off) (v : Nat)
    (rest : List Byte) : u32 (front ++ (pack 4 v ++ rest)) off = v % 2 ^ 32 := by
  rw [u32, slice, List.drop_left' hoff, List.take_left' (pack_length _ _), le_pack]
  rfl

/-- The header is read as three fields, and the data stand behind it. -/
theorem binDecompressRom_eq {read_buffer : List Byte} (h : 16 ≤ read_buffer.length) (amount : Int)
    (view : List Byte) :
    binDecompressRom read_buffer amount view = (do
      let decoder ← LZXState.new (u32 read_buffer 0)
      let r ← decompress decoder ⟨read_buffer, 16⟩ amount ⟨[], 0⟩ (u32 read_buffer 4)
      let bytes := r.2.data.take (u32 read_buffer 4)
      if bytes.length = min (u32 read_buffer 4) view.length then
        return (r.1, u32 read_buffer 4, bytes ++ view.drop (u32 read_buffer 4))
      else none) := by
  have h0 : (slice read_buffer 0 4).length = 4 := slice_length (by omega)
  have h4 : (slice read_buffer 4 4).length = 4 := slice_length (by omega)
  have h8 : (slice read_buffer 8 8).length = 8 := slice_length (by omega)
  simp only [binDecompressRom, ByteFile.read, h0, h4, h8, Nat.zero_add, Nat.reduceAdd]
  rfl

/-- The fields in the header of a block. -/
theorem header_fields {b : Packed} (hb : b.Valid) (rest : List Byte) :
    u32 (b.bytes ++ rest) 0 = b.window_bits ∧
      u32 (b.bytes ++ rest) 4 = b.body.content.length ∧
      u32 (b.bytes ++ rest) 8 = (LzxFormat.encode b.intel b.body).length % 2 ^ 32 := by
  have hbits := hb.window_bits
  have hsize := hb.size
  rw [CECOMPRESS_BLOCK_SIZE] at hsize
  have hbytes : b.bytes ++ rest = [] ++ (pack 4 b.window_bits ++
      (pack 4 b.body.content.length ++ (pack 4 (LzxFormat.encode b.intel b.body).length ++
        (pack 4 b.unused ++ (LzxFormat.encode b.intel b.body ++ b.pad ++ rest))))) := by
    simp only [Packed.bytes, Packed.header, List.append_assoc, List.nil_append]
  rw [hbytes]
  refine ⟨?_, ?_, ?_⟩
  · rw [u32_pack List.length_nil, Nat.mod_eq_of_lt (by omega)]
  · rw [List.nil_append, u32_pack (pack_length _ _), Nat.mod_eq_of_lt (by omega)]
  · have htwo : (pack 4 b.window_bits ++ pack 4 b.body.content.length).length = 8 := by
      rw [List.length_append, pack_length, pack_length]
    rw [List.nil_append, ← List.append_assoc, u32_pack htwo]

/-- A block passes the check of the layout. -/
theorem block_of_valid {b : Packed} (hb : b.Valid) : Block b.body.content.length b.bytes := by
  obtain ⟨hwindow, hsize, hdata⟩ := header_fields hb []
  rw [List.append_nil] at hwindow hsize hdata
  have hlen : b.bytes.length = 16 + ((LzxFormat.encode b.intel b.body).length + b.pad.length) := by
    rw [Packed.bytes, List.length_append, List.length_append, b.header_length]
  refine ⟨by omega, ?_, hsize, ?_⟩
  · rw [hwindow]
    exact hb.window_bits
  · rw [hdata, hlen]
    have hmod := Nat.mod_le (LzxFormat.encode b.intel b.body).length (2 ^ 32)
    omega

theorem binDecompressRom_bytes {b : Packed} (hb : b.Valid) (rest view : List Byte)
    (hview : b.body.content.length ≤ view.length) :
    binDecompressRom (b.bytes ++ rest) b.bytes.length view =
      some (0, b.body.content.length, b.chunk ++ view.drop b.body.content.length) := by
  have hbits := hb.window_bits
  have hsize := hb.size
  rw [CECOMPRESS_BLOCK_SIZE] at hsize
  have hpow : 2 ^ 15 ≤ 2 ^ b.window_bits := Nat.pow_le_pow_right Nat.two_pos hbits.1
  have hin : ((LzxFormat.encode b.intel b.body).length : Int) ≤ b.bytes.length := by
    rw [Packed.bytes, List.length_append, List.length_append]
    omega
  have h16 : 16 ≤ (b.bytes ++ rest).length := by
    rw [Packed.bytes, List.length_append, List.length_append, b.header_length]
    omega
  obtain ⟨f, hrun, hdata⟩ := decompress_encode b.header (b.pad ++ rest)
    hbits hb.intel hb.body ⟨hsize.1, by omega⟩ hin
  obtain ⟨h0, h4, -⟩ := header_fields hb rest
  have hplace : b.header ++ (LzxFormat.encode b.intel b.body ++ (b.pad ++ rest)) = b.bytes ++ rest := by
    rw [Packed.bytes, List.append_assoc, List.append_assoc]
  rw [hplace, b.header_length] at hrun
  have hlen : f.data.length = b.body.content.length := by
    rw [hdata]
    exact undoCalls_length
  have htake : f.data.take b.body.content.length = b.chunk := by
    rw [← hlen, List.take_length, hdata]
    rfl
  rw [binDecompressRom_eq h16, h0, h4, new_eq hbits]
  simp only [Option.bind_eq_bind, Option.bind_some, hrun, htake, b.chunk_length]
  rw [if_pos (Nat.min_eq_left hview).symm]
  rfl

variable {data : List Byte} {packed : List Packed}

/-- The blocks of a table, one behind the other, fill the buffer with what they stand for. -/
theorem romBlocks_run (hv : ∀ b ∈ packed, b.Valid) {start input_position : Nat}
    (hfields : fields 3 (data.drop input_position) packed.length =
      ends start (packed.map Packed.bytes))
    (hdata : data.drop start = (packed.map Packed.bytes).flatten) (blocksize : Nat)
    (done : List Byte) {rest : List Byte} (hroom : (packed.flatMap Packed.chunk).length ≤ rest.length) :
    romBlocks data 1 packed.length (packed.flatMap Packed.chunk).length input_position start
        done.length blocksize (done ++ rest) =
      some (((blocksize + (packed.flatMap Packed.chunk).length : Nat) : Int),
        done ++ (packed.flatMap Packed.chunk ++
          rest.drop (packed.flatMap Packed.chunk).length)) := by
  induction packed generalizing start input_position blocksize done rest with
  | nil => rfl
  | cons b packed ih =>
    have hb := hv b List.mem_cons_self
    have hchunk := b.chunk_length
    have hsize := hb.size
    rw [List.length_cons, fields_succ, List.map_cons, ends, slice_drop, Nat.add_zero,
      List.drop_drop] at hfields
    obtain ⟨hend, hfields⟩ := List.cons.inj hfields
    rw [List.map_cons, List.flatten_cons] at hdata
    have hnext : data.drop (start + b.bytes.length) = (packed.map Packed.bytes).flatten := by
      rw [← List.drop_drop, hdata, List.drop_left]
    rw [List.flatMap_cons, List.length_append] at hroom
    have hne : ¬ (((b :: packed).flatMap Packed.chunk).length : Int) = 0 := by
      rw [List.flatMap_cons, List.length_append]
      omega
    have hamount : ((start + b.bytes.length : Nat) : Int) - start = b.bytes.length := by omega
    have hless : (((b :: packed).flatMap Packed.chunk).length : Int) - b.body.content.length =
        (packed.flatMap Packed.chunk).length := by
      rw [List.flatMap_cons, List.length_append]
      omega
    have hlong : (done ++ b.chunk).length = done.length + b.body.content.length := by
      rw [List.length_append, hchunk]
    have hleft : (packed.flatMap Packed.chunk).length ≤
        (rest.drop b.body.content.length).length := by
      rw [List.length_drop]
      omega
    have hrec := ih (fun x hx => hv x (List.mem_cons_of_mem b hx)) hfields hnext
      (blocksize + b.body.content.length) (done ++ b.chunk) hleft
    rw [hlong, List.append_assoc] at hrec
    have hbin := binDecompressRom_bytes hb (packed.map Packed.bytes).flatten rest (by omega)
    rw [List.length_cons, romBlocks, if_neg hne, hend]
    simp only [hamount, hdata, List.drop_left, hbin, Option.bind_eq_bind, Option.bind_some,
      List.take_left, hless, Nat.mul_one]
    rw [if_neg (by decide), hrec, List.flatMap_cons, List.length_append, hchunk, List.drop_drop,
      List.append_assoc, List.append_assoc, Nat.add_assoc]

/-- Blocks whose sizes run down to nothing stand for as many bytes. -/
theorem length_of_runsDown (hv : ∀ b ∈ packed, b.Valid) {total : Nat}
    (h : RunsDown total 0 (packed.map Packed.bytes)) :
    (packed.flatMap Packed.chunk).length = total := by
  induction packed generalizing total with
  | nil => exact h.symm
  | cons b packed ih =>
    obtain ⟨hblock, hrest⟩ := h
    obtain ⟨-, hsize, -⟩ := header_fields (hv b List.mem_cons_self) []
    rw [List.append_nil, hblock.uncompressed] at hsize
    have hrec := ih (fun x hx => hv x (List.mem_cons_of_mem b hx)) hrest
    rw [List.flatMap_cons, List.length_append, hrec, b.chunk_length]
    omega

/-- The table of an encoding is a layout of it. -/
theorem layout_of_encode {expected : Option Int} {total : Nat} {blocks : List (List Byte)}
    (hwell : WellFormed total blocks) (hencode : encode total blocks = some data)
    (hexpected : ∀ e ∈ expected, (total : Int) ≤ e) :
    (parseCecompressLayout data expected).outcome = .layout total := by
  obtain ⟨htotal, hends, hcut, hlen⟩ := encoding_reads hencode
  have hruns := (runsDown_iff hwell.count).mpr hwell.block
  rw [hwell.count] at hends hcut hlen
  have htable : tableSize total ≤ data.length := hlen ▸ Nat.le_add_right _ _
  rw [parse_layout_iff, blockEnds, hends, tableSize, hcut]
  refine ⟨htotal.symm, ⟨hwell.pos, hexpected, htable⟩, rise_ends hlen.ge, hruns, ?_⟩
  have hlast : (tableSize total :: blockEnds data total).getLast? =
      (blockEnds data total).getLast? := blockEnds_getLast hwell.pos _
  rw [blockEnds, hends] at hlast
  rw [← hlast, hlen]
  exact ends_getLast (tableSize total) blocks

theorem ceDecompressROM_encode (hv : ∀ b ∈ packed, b.Valid) {total : Nat}
    (hwell : WellFormed total (packed.map Packed.bytes))
    (hencode : encode total (packed.map Packed.bytes) = some data) (out : List Byte)
    (hout : total ≤ out.length) :
    ceDecompressROM data data.length out total 0 1 CECOMPRESS_BLOCK_SIZE =
      some ((total : Int), packed.flatMap Packed.chunk ++ out.drop total) := by
  have hlength := length_of_runsDown hv ((runsDown_iff hwell.count).mpr hwell.block)
  obtain ⟨htotal, hends, -, hlen⟩ := encoding_reads hencode
  have hcount := hwell.count
  have hpos := hwell.pos
  rw [List.length_map] at hends hlen hcount
  have hblocks : ((total - 1) >>> 12) + 1 = packed.length := by
    rw [blockCount_eq hpos, hcount]
  have hdrop : data.drop (3 * (packed.length + 1)) = (packed.map Packed.bytes).flatten := by
    obtain ⟨-, hdata⟩ := encode_iff.mp hencode
    rw [← hdata, List.drop_left']
    rw [table_length, List.length_cons, ends_length, List.length_map]
  have hrun := romBlocks_run hv hends hdrop 0 [] (hlength.trans_le hout)
  rw [hlength, Nat.zero_add] at hrun
  have hshort : data.length > 2 := by omega
  have hfit : (packed.length + 1) * 3 ≤ data.length ∧ 0 < packed.length + 1 := by omega
  have htwo : ((total - 1) >>> 12) + 2 = packed.length + 1 := by omega
  rw [ceDecompressROM, if_neg (by decide), if_pos ⟨by decide, hshort⟩, htotal]
  have hbits : ((if CECOMPRESS_BLOCK_SIZE = 4096 then 1 else 0) * 2 + 10) &&& 0x1f = 12 := by
    decide
  have hnext : (0 : Nat) >>> 12 = 0 := rfl
  have hmul : (packed.length + 1) * 3 = 3 * (packed.length + 1) := Nat.mul_comm _ _
  simp only [hbits, if_neg hpos.ne', htwo, hnext]
  rw [if_neg (not_not.mpr hfit), if_neg (not_not.mpr rfl), hmul]
  exact hrun

/-- A file of blocks is unpacked to what its blocks stand for. -/
theorem maybeDecompress_encode (hv : ∀ b ∈ packed, b.Valid) {total : Nat}
    (hwell : WellFormed total (packed.map Packed.bytes))
    (hencode : encode total (packed.map Packed.bytes) = some data) {expected : Option Int}
    (hexpected : ∀ e ∈ expected, (total : Int) ≤ e) :
    maybeDecompressCecompress data expected = some (some (packed.flatMap Packed.chunk)) := by
  have hlength := length_of_runsDown hv ((runsDown_iff hwell.count).mpr hwell.block)
  have hroom : total ≤ (List.replicate (total + CECOMPRESS_BLOCK_SIZE) (0 : Byte)).length := by
    rw [List.length_replicate]
    exact Nat.le_add_right _ _
  have hrom := ceDecompressROM_encode hv hwell hencode _ hroom
  have hnonneg : ¬ (total : Int) < 0 := by omega
  have hfits : ¬ expected.any (fun e => decide ((total : Int) > e)) = true :=
    mt (exceeds_iff expected total).mp (not_not.mpr hexpected)
  have htake : (packed.flatMap Packed.chunk ++
      (List.replicate (total + CECOMPRESS_BLOCK_SIZE) (0 : Byte)).drop total).take
        (total : Int).toNat = packed.flatMap Packed.chunk := by
    rw [Int.toNat_natCast, List.take_left' hlength]
  rw [maybeDecompressCecompress, layout_of_encode hwell hencode hexpected]
  simp only [decompressCecompress, hrom, Option.bind_eq_bind, Option.bind_some]
  rw [if_neg hnonneg, if_neg (not_not.mpr rfl), if_neg hfits, htake]
  rfl

section stored

def storedBlock (bytes : List Byte) : Packed := ⟨15, none, .raw fresh bytes, 0, []⟩

def storedBlocks : (blocks : Nat) → List Byte → List Packed
  | 0, _ => []
  | blocks + 1, bytes =>
    storedBlock (bytes.take CECOMPRESS_BLOCK_SIZE) ::
      storedBlocks blocks (bytes.drop CECOMPRESS_BLOCK_SIZE)

def store (bytes : List Byte) : Option (List Byte) :=
  encode bytes.length ((storedBlocks (bytes.length ⌈/⌉ 4096) bytes).map Packed.bytes)

variable {bytes : List Byte} {blocks : Nat}

theorem storedBlock_length (bytes : List Byte) :
    (storedBlock bytes).bytes.length = bytes.length + 32 := by
  have hhead : (headWord none BLOCKTYPE_UNCOMPRESSED bytes.length).length = 28 := by
    simp only [headWord, intelWord, List.length_append, bits_length]
  simp only [Packed.bytes, storedBlock, LzxFormat.encode, List.length_append, Packed.header_length,
    packBits_length, pack_length, hhead, List.length_nil]
  omega

theorem storedBlock_valid (h : 0 < bytes.length) :
    (storedBlock (bytes.take CECOMPRESS_BLOCK_SIZE)).Valid := by
  have hfresh : fresh.R0 < 2 ^ 32 ∧ fresh.R1 < 2 ^ 32 ∧ fresh.R2 < 2 ^ 32 := by decide
  refine ⟨⟨Nat.le_refl 15, Nat.le_add_left 15 6⟩, ?_, hfresh, ?_⟩
  · intro f hf
    cases hf
  · change 0 < (bytes.take _).length ∧ (bytes.take _).length ≤ _
    rw [List.length_take, CECOMPRESS_BLOCK_SIZE]
    omega

theorem storedBlocks_length (blocks : Nat) (bytes : List Byte) :
    (storedBlocks blocks bytes).length = blocks := by
  induction blocks generalizing bytes with
  | zero => rfl
  | succ blocks ih => rw [storedBlocks, List.length_cons, ih]

/-- The blocks of a file are fit for it, stand for it, and are not much longer. -/
theorem storedBlocks_fit (bytes : List Byte) (hcount : blocks = bytes.length ⌈/⌉ 4096) :
    (∀ b ∈ storedBlocks blocks bytes, b.Valid) ∧
      RunsDown bytes.length 0 ((storedBlocks blocks bytes).map Packed.bytes) ∧
      (storedBlocks blocks bytes).flatMap Packed.chunk = bytes ∧
      (((storedBlocks blocks bytes).map Packed.bytes).flatten).length =
        bytes.length + 32 * blocks := by
  rw [Nat.ceilDiv_eq_add_pred_div] at hcount
  induction blocks generalizing bytes with
  | zero =>
    have hnil : bytes = [] := List.eq_nil_of_length_eq_zero (by omega)
    subst hnil
    exact ⟨nofun, rfl, rfl, rfl⟩
  | succ blocks ih =>
    have hv : (storedBlock (bytes.take CECOMPRESS_BLOCK_SIZE)).Valid := storedBlock_valid (by omega)
    have hsize : (storedBlock (bytes.take CECOMPRESS_BLOCK_SIZE)).body.content.length =
        min CECOMPRESS_BLOCK_SIZE bytes.length := List.length_take
    have hchunk : (storedBlock (bytes.take CECOMPRESS_BLOCK_SIZE)).chunk =
        bytes.take CECOMPRESS_BLOCK_SIZE := undoCalls_zero
    have hrest : bytes.length - min CECOMPRESS_BLOCK_SIZE bytes.length =
        (bytes.drop CECOMPRESS_BLOCK_SIZE).length := by
      rw [List.length_drop]
      omega
    have hblock := block_of_valid hv
    rw [hsize] at hblock
    obtain ⟨hvs, hruns, hchunks, hlength⟩ :=
      ih (bytes.drop CECOMPRESS_BLOCK_SIZE) (by rw [← hrest, CECOMPRESS_BLOCK_SIZE]; omega)
    rw [storedBlocks]
    refine ⟨List.forall_mem_cons.mpr ⟨hv, hvs⟩, ⟨hblock, ?_⟩, ?_, ?_⟩
    · rw [hrest]
      exact hruns
    · rw [List.flatMap_cons, hchunk, hchunks, List.take_append_drop]
    · rw [List.map_cons, List.flatten_cons, List.length_append, hlength, storedBlock_length,
        List.length_take, ← hrest]
      omega

theorem stored_wellFormed (hn : 0 < bytes.length) :
    WellFormed bytes.length
      ((storedBlocks (bytes.length ⌈/⌉ 4096) bytes).map Packed.bytes) := by
  have hcount : ((storedBlocks (bytes.length ⌈/⌉ 4096) bytes).map Packed.bytes).length =
      bytes.length ⌈/⌉ 4096 := by
    rw [List.length_map, storedBlocks_length]
  obtain ⟨-, hruns, -, -⟩ := storedBlocks_fit bytes rfl
  exact ⟨hn, hcount, (runsDown_iff hcount).mp hruns⟩

theorem le_of_mem_ends {start e : Nat} {ps : List (List Byte)} (h : e ∈ ends start ps) :
    e ≤ start + ps.flatten.length := by
  induction ps generalizing start with
  | nil => exact absurd h List.not_mem_nil
  | cons p ps ih =>
    rw [List.flatten_cons, List.length_append]
    obtain rfl | hmem := List.mem_cons.mp h
    · omega
    · have hle := ih hmem
      omega

theorem encode_some {total : Nat} {blocks : List (List Byte)} (ht : total < 2 ^ 24)
    (hends : ∀ e ∈ ends (3 * (blocks.length + 1)) blocks, e < 2 ^ 24) :
    ∃ data, encode total blocks = some data :=
  ⟨_, if_pos ⟨ht, hends⟩⟩

theorem store_some (hn : bytes.length + 35 * (bytes.length ⌈/⌉ 4096) + 3 < 2 ^ 24) :
    ∃ data, store bytes = some data := by
  obtain ⟨-, -, -, hlength⟩ := storedBlocks_fit bytes rfl
  refine encode_some (by omega) ?_
  intro e he
  have hle := le_of_mem_ends he
  rw [hlength, List.length_map, storedBlocks_length] at hle
  omega

end stored

theorem chunk_of_makeCalls {b : Packed} {piece : List Byte} (hb : b.Valid)
    (h : b.body.content = makeCalls (b.intel.getD 0) piece) : b.chunk = piece := by
  have hsize := hb.size
  have hlen := congrArg List.length h
  rw [makeCalls_length] at hlen
  rw [CECOMPRESS_BLOCK_SIZE] at hsize
  have hf : b.intel.getD 0 ≤ 2 ^ 31 := by
    cases hi : b.intel with
    | none => exact Nat.zero_le _
    | some f => exact hb.intel f hi
  rw [Packed.chunk, h, undoCalls_makeCalls hf (by omega)]

/-- Whatever codes, copies and translations the pieces of a file are written with, the file comes
out again. -/
theorem unpack_packed {pieces : List (List Byte)} (hv : ∀ b ∈ packed, b.Valid)
    (hpieces : List.Forall₂ (fun b piece => b.body.content = makeCalls (b.intel.getD 0) piece)
      packed pieces) {expected : Option Int} {total : Nat}
    (hwell : WellFormed total (packed.map Packed.bytes))
    (hencode : encode total (packed.map Packed.bytes) = some data)
    (hexpected : ∀ e ∈ expected, (total : Int) ≤ e) :
    maybeDecompressCecompress data expected = some (some pieces.flatten) := by
  have hchunks : packed.flatMap Packed.chunk = pieces.flatten := by
    clear hwell hencode
    induction hpieces with
    | nil => rfl
    | cons hb _ ih =>
      rw [List.flatMap_cons, List.flatten_cons, chunk_of_makeCalls (hv _ List.mem_cons_self) hb,
        ih fun x hx => hv x (List.mem_cons_of_mem _ hx)]
  rw [maybeDecompress_encode hv hwell hencode hexpected, hchunks]

def runBlock : Packed := ⟨15, none, runBody, 0, [7]⟩

theorem runBlock_valid : runBlock.Valid := by
  refine ⟨by decide, by decide, runBody_valid, ?_⟩
  change 0 < runBody.content.length ∧ runBody.content.length ≤ _
  rw [runBody_content]
  decide

def fullBlock : Packed := storedBlock (List.replicate CECOMPRESS_BLOCK_SIZE 7)

theorem fullBlock_content : fullBlock.body.content = List.replicate CECOMPRESS_BLOCK_SIZE 7 := rfl

theorem fullBlock_valid : fullBlock.Valid := by
  have hlen : (List.replicate CECOMPRESS_BLOCK_SIZE (7 : Byte)).length = CECOMPRESS_BLOCK_SIZE :=
    List.length_replicate
  have hv : (storedBlock ((List.replicate CECOMPRESS_BLOCK_SIZE 7).take _)).Valid :=
    storedBlock_valid (by rw [hlen]; decide)
  rwa [List.take_of_length_le hlen.le] at hv

theorem twoBlocks_valid : ∀ b ∈ [fullBlock, runBlock], b.Valid :=
  List.forall_mem_cons.mpr ⟨fullBlock_valid, List.forall_mem_singleton.mpr runBlock_valid⟩

theorem twoBlocks_runsDown : RunsDown 4102 0 [fullBlock.bytes, runBlock.bytes] := by
  have hfull := block_of_valid fullBlock_valid
  have hrun := block_of_valid runBlock_valid
  have hsize : runBlock.body.content.length = 6 := by
    change runBody.content.length = 6
    rw [runBody_content]
    rfl
  rw [fullBlock_content, List.length_replicate] at hfull
  rw [hsize] at hrun
  exact ⟨hfull, hrun, rfl⟩

/-- A full block as it is, and six bytes in a block of its own. -/
theorem unpack_packed_run :
    ∃ data, encode 4102 [fullBlock.bytes, runBlock.bytes] = some data ∧
      maybeDecompressCecompress data (some 5000) =
        some (some [List.replicate CECOMPRESS_BLOCK_SIZE 7, List.replicate 6 97].flatten) := by
  have hwell : WellFormed 4102 [fullBlock.bytes, runBlock.bytes] :=
    ⟨by decide, rfl, (runsDown_iff rfl).mp twoBlocks_runsDown⟩
  have hlen : [fullBlock.bytes, runBlock.bytes].flatten.length < 4208 := by
    have hrun : runBlock.bytes.length < 80 := by decide +kernel
    rw [List.flatten_cons, List.flatten_singleton, List.length_append, fullBlock,
      storedBlock_length, List.length_replicate, CECOMPRESS_BLOCK_SIZE]
    omega
  have hends : ∀ e ∈ ends (3 * ([fullBlock.bytes, runBlock.bytes].length + 1))
      [fullBlock.bytes, runBlock.bytes], e < 2 ^ 24 := by
    intro e he
    have hle := le_of_mem_ends he
    rw [List.length_cons, List.length_singleton] at hle
    omega
  obtain ⟨data, hencode⟩ := encode_some (by decide : 4102 < 2 ^ 24) hends
  have hfull : fullBlock.body.content =
      makeCalls (fullBlock.intel.getD 0) (List.replicate CECOMPRESS_BLOCK_SIZE 7) := by
    have hcalls : makeCalls 0 (undoCalls 0 (List.replicate CECOMPRESS_BLOCK_SIZE 7)) = _ :=
      makeCalls_undoCalls (Nat.zero_le _) (by rw [List.length_replicate]; decide)
    rw [undoCalls_zero] at hcalls
    exact fullBlock_content.trans hcalls.symm
  have hrun : runBlock.body.content = makeCalls (runBlock.intel.getD 0) (List.replicate 6 97) :=
    runBody_content
  exact ⟨data, hencode, unpack_packed twoBlocks_valid
    (List.Forall₂.cons hfull (List.Forall₂.cons hrun List.Forall₂.nil)) hwell hencode (by decide)⟩

/-- Every file that the offsets of the table can span is written in a way that is read. -/
theorem unpack_store {bytes : List Byte} {expected : Option Int} (hpos : 0 < bytes.length)
    (hn : bytes.length + 35 * (bytes.length ⌈/⌉ 4096) + 3 < 2 ^ 24)
    (hexpected : ∀ e ∈ expected, (bytes.length : Int) ≤ e) :
    ∃ data, store bytes = some data ∧
      maybeDecompressCecompress data expected = some (some bytes) := by
  obtain ⟨data, hdata⟩ := store_some hn
  obtain ⟨hv, -, hchunks, -⟩ := storedBlocks_fit bytes rfl
  have hrun := maybeDecompress_encode hv (stored_wellFormed hpos) hdata hexpected
  rw [hchunks] at hrun
  exact ⟨data, hdata, hrun⟩

theorem unpack_store_three :
    ∃ data, store [1, 2, 3] = some data ∧
      maybeDecompressCecompress data (some 3) = some (some [1, 2, 3]) :=
  unpack_store (by decide) (by decide) (by decide)

end AipcOs.CecompressRom
