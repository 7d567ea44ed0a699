import AipcOs.OffsetTable

/-! aipc-nand-extract/cecompress.py: the check of a CECOMPRESS block table, as an encoding of a
list of blocks. -/
namespace AipcOs.Cecompress
open ByteMemory OffsetTable StructBytes

def CECOMPRESS_BLOCK_SIZE : Nat := 0x1000

/-- Nothing stands for the IndexError of an index outside `data`. -/
def readU24le (data : List Byte) (offset : Nat) : Option Nat := do
  let b0 ← data[offset]?
  let b1 ← data[offset + 1]?
  let b2 ← data[offset + 2]?
  return b0.toNat ||| (b1.toNat <<< 8) ||| (b2.toNat <<< 16)

inductive Outcome where
  | indexError
  | rejected
  | layout (uncompressed_size : Nat)
  deriving DecidableEq

/-- What parse_cecompress_layout does, and the places in `data` that it looks at. -/
structure Parse where
  outcome : Outcome
  indexed : List Nat

def checkBlocks (data : List Byte) :
    (block_ends : List Nat) → (previous remaining : Nat) → Option Nat × List Nat
  | [], _, remaining => (some remaining, [])
  | e :: block_ends, previous, remaining =>
    if e < previous ∨ e > data.length then (none, [])
    else if e - previous < 16 then (none, [])
    else
      let header := List.range' previous 12
      let window_bits := u32 data previous
      let block_uncompressed_size := u32 data (previous + 4)
      let block_compressed_size := u32 data (previous + 8)
      if ¬(15 ≤ window_bits ∧ window_bits ≤ 21) then (none, header)
      else if block_uncompressed_size ≠ min CECOMPRESS_BLOCK_SIZE remaining then (none, header)
      else if block_compressed_size > e - previous - 16 then (none, header)
      else
        let rest := checkBlocks data block_ends e (remaining - block_uncompressed_size)
        (rest.1, header ++ rest.2)

def finish (data : List Byte) (uncompressed_size : Nat) (block_ends : List Nat) :
    Option Nat → Outcome
  | none => .rejected
  | some remaining =>
    match block_ends.getLast? with
    | none => .indexError
    | some last =>
      if last ≠ data.length then .rejected
      else if remaining ≠ 0 then .rejected
      else .layout uncompressed_size

def parseCecompressLayout (data : List Byte) (expected_size : Option Int) : Parse :=
  if data.length < 6 then ⟨.rejected, []⟩
  else
    match readU24le data 0 with
    | none => ⟨.indexError, List.range 3⟩
    | some uncompressed_size =>
      if uncompressed_size ≤ 0 then ⟨.rejected, List.range 3⟩
      else if expected_size.any (fun e => decide ((uncompressed_size : Int) > e)) then
        ⟨.rejected, List.range 3⟩
      else
        let block_count := ((uncompressed_size - 1) >>> 12) + 1
        let table_entries := block_count + 1
        let table_size := table_entries * 3
        if table_size > data.length then ⟨.rejected, List.range 3⟩
        else
          match (List.range' 1 block_count).mapM fun index => readU24le data (index * 3) with
          | none => ⟨.indexError, List.range table_size⟩
          | some block_ends =>
            let r := checkBlocks data block_ends table_size uncompressed_size
            ⟨finish data uncompressed_size block_ends r.1, List.range table_size ++ r.2⟩

structure Block (size : Nat) (b : List Byte) : Prop where
  length : 16 ≤ b.length
  window_bits : 15 ≤ u32 b 0 ∧ u32 b 0 ≤ 21
  uncompressed : u32 b 4 = size
  compressed : u32 b 8 ≤ b.length - 16

structure WellFormed (total : Nat) (blocks : List (List Byte)) : Prop where
  pos : 0 < total
  count : blocks.length = total ⌈/⌉ 4096
  block : ∀ k b, blocks[k]? = some b →
    Block (if k + 1 = blocks.length then total - 4096 * k else 4096) b

def encode (total : Nat) (blocks : List (List Byte)) : Option (List Byte) :=
  let block_ends := ends (3 * (blocks.length + 1)) blocks
  if total < 2 ^ 24 ∧ ∀ e ∈ block_ends, e < 2 ^ 24 then
    some (pack 3 total ++ block_ends.flatMap (pack 3) ++ blocks.flatten)
  else none

/-- Blocks that the size runs down over, from `remaining` to `left`. -/
def RunsDown (remaining left : Nat) : List (List Byte) → Prop
  | [] => remaining = left
  | b :: blocks =>
    Block (min CECOMPRESS_BLOCK_SIZE remaining) b ∧
      RunsDown (remaining - min CECOMPRESS_BLOCK_SIZE remaining) left blocks

variable {data : List Byte}

theorem or_shifts (b0 b1 b2 : Byte) :
    b0.toNat ||| (b1.toNat <<< 8) ||| (b2.toNat <<< 16) = le [b0, b1, b2] := by
  have h0 := b0.isLt
  have h1 := b1.isLt
  have hlow : b0.toNat ||| (b1.toNat <<< 8) = b1.toNat <<< 8 + b0.toNat := by
    rw [Nat.or_comm, Nat.shiftLeft_add_eq_or_of_lt h0]
  have hlt : b1.toNat <<< 8 + b0.toNat < 2 ^ 16 := by
    rw [Nat.shiftLeft_eq]
    omega
  rw [hlow, Nat.or_comm, ← Nat.shiftLeft_add_eq_or_of_lt hlt, Nat.shiftLeft_eq, Nat.shiftLeft_eq]
  simp only [le, List.map_cons, List.map_nil, Nat.ofDigits_cons, Nat.ofDigits_nil]
  omega

theorem readU24le_eq {off : Nat} (h : off + 3 ≤ data.length) :
    readU24le data off = some (le (slice data off 3)) := by
  have hslice : slice data off 3 = [data[off], data[off + 1], data[off + 2]] := by
    rw [slice, List.drop_eq_getElem_cons (by omega), List.drop_eq_getElem_cons (by omega),
      List.drop_eq_getElem_cons (by omega)]
    rfl
  rw [hslice, ← or_shifts, readU24le, List.getElem?_eq_getElem (by omega),
    List.getElem?_eq_getElem (by omega), List.getElem?_eq_getElem (by omega)]
  rfl

theorem blockCount_eq {total : Nat} (h : 0 < total) :
    ((total - 1) >>> 12) + 1 = total ⌈/⌉ 4096 := by
  rw [Nat.shiftRight_eq_div_pow, Nat.ceilDiv_eq_add_pred_div]
  omega

theorem block_slice {previous e size : Nat} (hle : previous + 16 ≤ e) (hlim : e ≤ data.length) :
    Block size (slice data previous (e - previous)) ↔
      (15 ≤ u32 data previous ∧ u32 data previous ≤ 21) ∧ u32 data (previous + 4) = size ∧
        u32 data (previous + 8) ≤ e - previous - 16 := by
  have hlen : (slice data previous (e - previous)).length = e - previous :=
    slice_length (by omega)
  have hfield {k : Nat} (hk : k + 4 ≤ e - previous) :
      u32 (slice data previous (e - previous)) k = u32 data (previous + k) := by
    rw [u32, slice_slice data previous hk, u32]
  constructor
  · intro h
    have hwindow := h.window_bits
    have hsize := h.uncompressed
    have hdata := h.compressed
    rw [hfield (by omega)] at hwindow hsize hdata
    rw [hlen] at hdata
    exact ⟨hwindow, hsize, hdata⟩
  · intro h
    obtain ⟨hwindow, hsize, hdata⟩ := h
    refine ⟨?_, ?_, ?_, ?_⟩
    · rw [hlen]
      omega
    · rw [hfield (by omega)]
      exact hwindow
    · rw [hfield (by omega)]
      exact hsize
    · rw [hfield (by omega), hlen]
      exact hdata

/-- The loop accepts exactly the ends of blocks that run down. -/
theorem checkBlocks_iff {block_ends : List Nat} {previous remaining left : Nat}
    (hlim : previous ≤ data.length) :
    (checkBlocks data block_ends previous remaining).1 = some left ↔
      Rise data.length previous block_ends ∧
        RunsDown remaining left (cut data previous block_ends) := by
  induction block_ends generalizing previous remaining with
  | nil => simp [checkBlocks, Rise, cut, RunsDown, hlim]
  | cons e block_ends ih =>
    rw [cut, Rise, RunsDown, checkBlocks]
    by_cases hrange : e < previous ∨ e > data.length
    · rw [if_pos hrange]
      refine iff_of_false (Option.some_ne_none left).symm fun h => ?_
      have hrise := h.1.1
      have hinside := h.1.2.start_le
      omega
    by_cases hshort : e - previous < 16
    · rw [if_neg hrange, if_pos hshort]
      refine iff_of_false (Option.some_ne_none left).symm fun h => ?_
      have hlength := h.2.1.length
      rw [slice_length (by omega)] at hlength
      omega
    rw [if_neg hrange, if_neg hshort, block_slice (by omega) (by omega)]
    have hinside : e ≤ data.length := by omega
    have hnext := @ih e (remaining - min CECOMPRESS_BLOCK_SIZE remaining) hinside
    by_cases hblock : (15 ≤ u32 data previous ∧ u32 data previous ≤ 21) ∧
        u32 data (previous + 4) = min CECOMPRESS_BLOCK_SIZE remaining ∧
          u32 data (previous + 8) ≤ e - previous - 16
    · obtain ⟨hwindow, hsize, hdata⟩ := hblock
      simp only [if_neg (not_not.mpr hwindow), if_neg (not_not.mpr hsize),
        if_neg (not_lt.mpr hdata)]
      rw [hsize, hnext]
      exact ⟨fun h => ⟨⟨by omega, h.1⟩, ⟨hwindow, rfl, hdata⟩, h.2⟩, fun h => ⟨h.1.2, h.2.2⟩⟩
    · refine iff_of_false ?_ fun h => hblock h.2.1
      simp only
      split
      · exact (Option.some_ne_none left).symm
      · rename_i hwindow
        split
        · exact (Option.some_ne_none left).symm
        · rename_i hsize
          rw [if_pos (not_le.mp fun hdata => hblock ⟨not_not.mp hwindow, not_not.mp hsize, hdata⟩)]
          exact (Option.some_ne_none left).symm

theorem runsDown_iff {total : Nat} {blocks : List (List Byte)}
    (hcount : blocks.length = total ⌈/⌉ 4096) :
    RunsDown total 0 blocks ↔ ∀ k b, blocks[k]? = some b →
      Block (if k + 1 = blocks.length then total - 4096 * k else 4096) b := by
  rw [Nat.ceilDiv_eq_add_pred_div] at hcount
  induction blocks generalizing total with
  | nil =>
    have hzero : total = 0 := by
      rw [List.length_nil] at hcount
      omega
    simp [RunsDown, hzero]
  | cons b blocks ih =>
    rw [List.length_cons] at hcount
    have hfewer : blocks.length = (total - min CECOMPRESS_BLOCK_SIZE total + 4096 - 1) / 4096 := by
      simp only [CECOMPRESS_BLOCK_SIZE]
      omega
    have hrest := ih hfewer
    have hfirst : min CECOMPRESS_BLOCK_SIZE total =
        if 0 + 1 = blocks.length + 1 then total - 4096 * 0 else 4096 := by
      simp only [CECOMPRESS_BLOCK_SIZE]
      split <;> omega
    have hlater (k : Nat) :
        (if k + 1 = blocks.length then total - min CECOMPRESS_BLOCK_SIZE total - 4096 * k
          else 4096) =
        if k + 1 + 1 = blocks.length + 1 then total - 4096 * (k + 1) else 4096 := by
      simp only [CECOMPRESS_BLOCK_SIZE, Nat.add_right_cancel_iff]
      split <;> omega
    rw [RunsDown, hrest, List.length_cons]
    constructor
    · intro ⟨hb, hblocks⟩ k b' hk
      cases k with
      | zero =>
        obtain rfl : b = b' := Option.some.inj hk
        rwa [← hfirst]
      | succ k =>
        rw [← hlater]
        exact hblocks k b' hk
    · intro hall
      refine ⟨hfirst ▸ hall 0 b rfl, fun k b' hk => ?_⟩
      rw [hlater]
      exact hall (k + 1) b' hk

theorem checkBlocks_indexed {block_ends : List Nat} {previous remaining : Nat} :
    ∀ i ∈ (checkBlocks data block_ends previous remaining).2, i < data.length := by
  induction block_ends generalizing previous remaining with
  | nil => exact fun i hi => absurd hi List.not_mem_nil
  | cons e block_ends ih =>
    rw [checkBlocks]
    by_cases hrange : e < previous ∨ e > data.length
    · rw [if_pos hrange]
      exact fun i hi => absurd hi List.not_mem_nil
    by_cases hshort : e - previous < 16
    · rw [if_neg hrange, if_pos hshort]
      exact fun i hi => absurd hi List.not_mem_nil
    have hheader : ∀ i ∈ List.range' previous 12, i < data.length := by
      intro i hi
      have hbound := (List.mem_range'_1.mp hi).2
      omega
    rw [if_neg hrange, if_neg hshort]
    simp only
    split
    · exact hheader
    · split
      · exact hheader
      · split
        · exact hheader
        · exact List.forall_mem_append.mpr ⟨hheader, ih⟩

def tableSize (total : Nat) : Nat := 3 * (total ⌈/⌉ 4096 + 1)

def blockEnds (data : List Byte) (total : Nat) : List Nat :=
  fields 3 (data.drop 3) (total ⌈/⌉ 4096)

structure Admitted (data : List Byte) (expected : Option Int) (total : Nat) : Prop where
  pos : 0 < total
  expected : ∀ e ∈ expected, (total : Int) ≤ e
  table : tableSize total ≤ data.length

theorem exceeds_iff (expected : Option Int) (total : Nat) :
    expected.any (fun e => decide ((total : Int) > e)) = true ↔
      ¬∀ e ∈ expected, (total : Int) ≤ e := by
  cases expected <;> simp

theorem readTable_eq {total : Nat} (h : tableSize total ≤ data.length) :
    ((List.range' 1 (total ⌈/⌉ 4096)).mapM fun index => readU24le data (index * 3)) =
      some (blockEnds data total) := by
  rw [mapM_eq_some_iff, List.range'_eq_map_range, blockEnds, fields, List.map_map, List.map_map]
  apply List.map_congr_left
  intro i hi
  have hlt := List.mem_range.mp hi
  rw [tableSize] at h
  rw [Function.comp_apply, Function.comp_apply, readU24le_eq (by omega), slice_drop,
    Nat.add_mul, Nat.one_mul, Nat.mul_comm i 3]

theorem parse_admitted {expected : Option Int}
    (h : Admitted data expected (le (slice data 0 3))) :
    let total := le (slice data 0 3)
    let r := checkBlocks data (blockEnds data total) (tableSize total) total
    parseCecompressLayout data expected =
      ⟨finish data total (blockEnds data total) r.1, List.range (tableSize total) ++ r.2⟩ := by
  intro total r
  have htable := h.table
  have hpos := h.pos
  have hceil : 0 < total ⌈/⌉ 4096 := by
    rw [Nat.ceilDiv_eq_add_pred_div]
    change 0 < total at hpos
    omega
  have hsix : ¬data.length < 6 := by
    change 3 * (total ⌈/⌉ 4096 + 1) ≤ data.length at htable
    omega
  have hexpected : ¬expected.any (fun e => decide ((total : Int) > e)) = true :=
    mt (exceeds_iff expected total).mp (not_not.mpr h.expected)
  have hsize : (((total - 1) >>> 12) + 1 + 1) * 3 = tableSize total := by
    rw [blockCount_eq hpos, tableSize, Nat.mul_comm]
  rw [parseCecompressLayout, if_neg hsix, readU24le_eq (by omega)]
  simp only
  rw [if_neg (not_le.mpr hpos), if_neg hexpected, hsize, if_neg (not_lt.mpr htable),
    blockCount_eq hpos, readTable_eq htable]

theorem parse_refused {expected : Option Int}
    (h : ¬Admitted data expected (le (slice data 0 3))) :
    ∃ k ≤ data.length, parseCecompressLayout data expected = ⟨.rejected, List.range k⟩ := by
  rw [parseCecompressLayout]
  by_cases hsix : data.length < 6
  · rw [if_pos hsix]
    exact ⟨0, Nat.zero_le _, rfl⟩
  rw [if_neg hsix, readU24le_eq (by omega)]
  simp only
  refine ⟨3, by omega, ?_⟩
  generalize le (slice data 0 3) = total at h ⊢
  by_cases hzero : total ≤ 0
  · rw [if_pos hzero]
  by_cases hexpected : expected.any (fun e => decide ((total : Int) > e)) = true
  · rw [if_neg hzero, if_pos hexpected]
  rw [if_neg hzero, if_neg hexpected, blockCount_eq (not_le.mp hzero), if_pos]
  by_contra htable
  have hall := not_not.mp (mt (exceeds_iff expected total).mpr hexpected)
  exact h ⟨not_le.mp hzero, hall, by rw [tableSize]; omega⟩

theorem finish_iff {total T : Nat} {block_ends : List Nat} {o : Option Nat} :
    finish data total block_ends o = .layout T ↔
      total = T ∧ o = some 0 ∧ block_ends.getLast? = some data.length := by
  cases o with
  | none => simp [finish]
  | some remaining =>
    cases hlast : block_ends.getLast? with
    | none => simp [finish, hlast]
    | some last =>
      simp only [finish, hlast]
      split_ifs with h1 h2 <;> simp_all

theorem blockEnds_getLast {total : Nat} (hpos : 0 < total) (start : Nat) :
    (start :: blockEnds data total).getLast? = (blockEnds data total).getLast? := by
  have hlen : (blockEnds data total).length = total ⌈/⌉ 4096 := fields_length _ _ _
  rw [Nat.ceilDiv_eq_add_pred_div] at hlen
  cases hends : blockEnds data total with
  | nil =>
    rw [hends, List.length_nil] at hlen
    omega
  | cons e es => rw [List.getLast?_cons_cons]

theorem finish_ne_indexError {total : Nat} (hpos : 0 < total) (o : Option Nat) :
    finish data total (blockEnds data total) o ≠ .indexError := by
  cases o with
  | none => nofun
  | some remaining =>
    have hlast : (0 :: blockEnds data total).getLast? = (blockEnds data total).getLast? :=
      blockEnds_getLast hpos 0
    cases hsome : (blockEnds data total).getLast? with
    | none => simp [hsome] at hlast
    | some last =>
      simp only [finish, hsome]
      split
      · nofun
      · split <;> nofun

/-- A layout is returned exactly for admitted data whose blocks run down to the end of it. -/
theorem parse_layout_iff {expected : Option Int} {T : Nat} :
    (parseCecompressLayout data expected).outcome = .layout T ↔
      T = le (slice data 0 3) ∧ Admitted data expected T ∧
        Rise data.length (tableSize T) (blockEnds data T) ∧
        RunsDown T 0 (cut data (tableSize T) (blockEnds data T)) ∧
        (blockEnds data T).getLast? = some data.length := by
  by_cases h : Admitted data expected (le (slice data 0 3))
  · rw [parse_admitted h]
    simp only
    rw [finish_iff, checkBlocks_iff h.table]
    constructor
    · intro ⟨hT, hblocks, hlast⟩
      subst hT
      exact ⟨rfl, h, hblocks.1, hblocks.2, hlast⟩
    · intro ⟨hT, _, hrise, hruns, hlast⟩
      subst hT
      exact ⟨rfl, ⟨hrise, hruns⟩, hlast⟩
  · obtain ⟨k, -, hparse⟩ := parse_refused h
    rw [hparse]
    refine iff_of_false nofun fun hall => h ?_
    rw [← hall.1]
    exact hall.2.1

theorem encode_iff {total : Nat} {blocks : List (List Byte)} :
    encode total blocks = some data ↔
      (∀ v ∈ total :: ends (3 * (blocks.length + 1)) blocks, v < 256 ^ 3) ∧
        (total :: ends (3 * (blocks.length + 1)) blocks).flatMap (pack 3) ++ blocks.flatten =
          data := by
  simp only [encode, List.forall_mem_cons, List.flatMap_cons]
  split
  · rename_i h
    exact ⟨fun hsome => ⟨h, Option.some.inj hsome⟩, fun hall => congrArg some hall.2⟩
  · rename_i h
    exact iff_of_false nofun fun hall => h hall.1

/-- What stands in an encoding: the total, the table, and the blocks. -/
theorem encoding_reads {total : Nat} {blocks : List (List Byte)}
    (h : encode total blocks = some data) :
    le (slice data 0 3) = total ∧
      fields 3 (data.drop 3) blocks.length = ends (3 * (blocks.length + 1)) blocks ∧
      cut data (3 * (blocks.length + 1)) (ends (3 * (blocks.length + 1)) blocks) = blocks ∧
      data.length = 3 * (blocks.length + 1) + blocks.flatten.length := by
  obtain ⟨hsmall, hdata⟩ := encode_iff.mp h
  have hread := fields_table hsmall blocks.flatten
  have htable := table_length 3 (total :: ends (3 * (blocks.length + 1)) blocks)
  rw [List.length_cons, ends_length] at hread htable
  rw [hdata, fields_succ] at hread
  obtain ⟨htotal, hends⟩ := List.cons.inj hread
  refine ⟨htotal, hends, ?_, ?_⟩
  · have hcut := cut_ends ((total :: ends (3 * (blocks.length + 1)) blocks).flatMap (pack 3)) []
      blocks
    rwa [List.append_nil, hdata, htable] at hcut
  · rw [← hdata, List.length_append, htable]

/-- The blocks between the ends of a table encode to the data they are cut from. -/
theorem encode_cut {total : Nat} (htotal : total = le (slice data 0 3)) (hpos : 0 < total)
    (htable : tableSize total ≤ data.length)
    (hrise : Rise data.length (tableSize total) (blockEnds data total))
    (hlast : (blockEnds data total).getLast? = some data.length) :
    encode total (cut data (tableSize total) (blockEnds data total)) = some data := by
  have hends := ends_cut hrise
  have hcount : (cut data (tableSize total) (blockEnds data total)).length = total ⌈/⌉ 4096 := by
    rw [← ends_length (tableSize total), hends]
    exact fields_length _ _ _
  rw [← blockEnds_getLast hpos (tableSize total)] at hlast
  obtain ⟨-, hflatten⟩ := flatten_cut hrise hlast
  have hfields : total :: blockEnds data total = fields 3 data (total ⌈/⌉ 4096 + 1) := by
    rw [fields_succ, ← htotal]
    rfl
  rw [encode_iff, hcount]
  change (∀ v ∈ total :: ends (tableSize total) _, _) ∧
    (total :: ends (tableSize total) _).flatMap _ ++ _ = _
  rw [hends, hflatten, hfields]
  refine ⟨fun v hv => fields_lt hv, ?_⟩
  rw [flatMap_fields htable, slice, ← List.length_drop, List.take_length]
  exact List.take_append_drop _ _

/-- The layout check accepts exactly the encodings of well-formed block lists within the expected
size, of which there is one for its data, and never indexes outside of it. -/
theorem layout_exact :
    (∀ data expected T, (parseCecompressLayout data expected).outcome = .layout T ↔
      (∃ blocks, WellFormed T blocks ∧ encode T blocks = some data) ∧
        ∀ e ∈ expected, (T : Int) ≤ e) ∧
    (∀ data T T' blocks blocks', WellFormed T blocks → encode T blocks = some data →
      WellFormed T' blocks' → encode T' blocks' = some data → T = T' ∧ blocks = blocks') ∧
    ∀ data expected, (parseCecompressLayout data expected).outcome ≠ .indexError ∧
      ∀ i ∈ (parseCecompressLayout data expected).indexed, i < data.length := by
  refine ⟨fun data expected T => ?_, ?_, fun data expected => ?_⟩
  · rw [parse_layout_iff]
    constructor
    · intro ⟨htotal, hadmitted, hrise, hruns, hlast⟩
      have hends := ends_cut hrise
      have hcount : (cut data (tableSize T) (blockEnds data T)).length = T ⌈/⌉ 4096 := by
        rw [← ends_length (tableSize T), hends]
        exact fields_length _ _ _
      exact ⟨⟨_, ⟨hadmitted.pos, hcount, (runsDown_iff hcount).mp hruns⟩,
        encode_cut htotal hadmitted.pos hadmitted.table hrise hlast⟩, hadmitted.expected⟩
    · intro ⟨⟨blocks, hwell, hencode⟩, hexpected⟩
      obtain ⟨htotal, hends, hcut, hlen⟩ := encoding_reads hencode
      have hruns := (runsDown_iff hwell.count).mpr hwell.block
      rw [hwell.count] at hends hcut hlen
      have hrise : Rise data.length (tableSize T) (blockEnds data T) := by
        rw [blockEnds, hends]
        exact rise_ends hlen.ge
      have hlast : (blockEnds data T).getLast? = some data.length := by
        rw [← blockEnds_getLast hwell.pos (tableSize T), blockEnds, hends, hlen]
        exact ends_getLast (tableSize T) blocks
      have htable : tableSize T ≤ data.length := hlen ▸ Nat.le_add_right _ _
      refine ⟨htotal.symm, ⟨hwell.pos, hexpected, htable⟩, hrise, ?_, hlast⟩
      rw [blockEnds, hends, tableSize, hcut]
      exact hruns
  · intro data T T' blocks blocks' hwell hencode hwell' hencode'
    obtain ⟨htotal, hends, hcut, -⟩ := encoding_reads hencode
    obtain ⟨htotal', hends', hcut', -⟩ := encoding_reads hencode'
    obtain rfl : T = T' := htotal.symm.trans htotal'
    have hcount : blocks.length = blocks'.length := hwell.count.trans hwell'.count.symm
    rw [hcount] at hends hcut
    rw [← hends, hends', hcut'] at hcut
    exact ⟨rfl, hcut.symm⟩
  · by_cases h : Admitted data expected (le (slice data 0 3))
    · rw [parse_admitted h]
      refine ⟨finish_ne_indexError h.pos _, List.forall_mem_append.mpr ⟨fun i hi => ?_, ?_⟩⟩
      · exact (List.mem_range.mp hi).trans_le h.table
      · exact checkBlocks_indexed
    · obtain ⟨k, hk, hparse⟩ := parse_refused h
      rw [hparse]
      exact ⟨nofun, fun i hi => (List.mem_range.mp hi).trans_le hk⟩

/-- One empty block for five bytes. -/
example : (parseCecompressLayout ([5, 0, 0, 22, 0, 0] ++ [15, 0, 0, 0, 5, 0, 0, 0] ++
    List.replicate 8 0) (some 5)).outcome = .layout 5 := by decide

end AipcOs.Cecompress
