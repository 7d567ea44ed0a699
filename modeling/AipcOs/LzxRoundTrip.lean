import AipcOs.LzxFormat

/-! LZXDecoder.decompress, on everything that the format can say in one block. -/
namespace AipcOs.LzxRoundTrip
open ByteMemory hiding readBytes
open StructBytes MsbBits LzxBits LzxTable LzxSymbols LzxLengths LzxBlock LzxTokens
open LzxCalls LzxDecoder LzxFormat

def start (w : Nat) : LZXState where
  R0 := 1
  R1 := 1
  R2 := 1
  main_elements := NUM_CHARS + 8 * position_slots.getD (w - 15) 0
  header_read := false
  block_type := BLOCKTYPE_INVALID
  block_length := 0
  block_remaining := 0
  intel_filesize := 0
  intel_started := false
  pretree := ⟨zeroTable 20 6, zeroLen 20⟩
  maintree_table := zeroTable 664 11
  maintree_len := zeroLen 664
  lentree_table := zeroTable 249 10
  lentree_len := zeroLen 249
  aligntree_table := zeroTable 8 7
  aligntree_len := zeroLen 8
  window_size := 2 ^ w
  window := List.replicate (2 ^ w) 0xDC
  window_posn := 0

def headed (w : Nat) (intel : Option Nat) : LZXState :=
  { start w with header_read := true, intel_filesize := intel.getD 0 }

def opened (w : Nat) (intel : Option Nat) (block_type n : Nat) : LZXState :=
  { headed w intel with block_type, block_length := n, block_remaining := n }

variable {w : Nat} {intel : Option Nat} {data : List Byte} {p begin n : Nat} {b b' : BitBuffer}

theorem new_eq (hw : 15 ≤ w ∧ w ≤ 21) : LZXState.new w = some (start w) := by
  have hslots : ∀ w < 22, 15 ≤ w → position_slots[w - 15]? = some (position_slots.getD (w - 15) 0) ∧
      1 <<< (w &&& 0x1f) = 2 ^ w ∧
      NUM_CHARS + position_slots.getD (w - 15) 0 <<< 3 =
        NUM_CHARS + 8 * position_slots.getD (w - 15) 0 := by
    decide
  obtain ⟨h1, h2, h3⟩ := hslots w (by omega) hw.1
  rw [LZXState.new, if_neg (by omega), h1, h2]
  change some _ = _
  rw [h3]
  rfl

theorem elements_le (hw : 15 ≤ w ∧ w ≤ 21) : NUM_CHARS + 8 * position_slots.getD (w - 15) 0 ≤ 656 := by
  have hall : ∀ w < 22, 15 ≤ w → NUM_CHARS + 8 * position_slots.getD (w - 15) 0 ≤ 656 := by
    decide
  exact hall w (by omega) hw.1

theorem bind_run {α β : Type} {f : Bits α} {g : α → Bits β} {a : α} (hf : f b = some (a, b')) :
    (f >>= g) b = g a b' := by
  change (f b >>= fun r => g r.1 r.2) = _
  rw [hf]
  rfl

theorem readHeader_reads (hintel : ∀ f ∈ intel, f < 2 ^ 32) :
    Reads (readHeader (start w)) (intelWord intel) (headed w intel) := by
  have hfalse : ¬ (start w).header_read = true := Bool.false_ne_true
  rw [readHeader, if_neg hfalse]
  cases intel with
  | none =>
    rw [intelWord, ← List.append_nil (bits 1 0)]
    refine (readBits_reads (v := 0) (by decide) (by decide)).bind ?_
    exact Reads.pure _
  | some f =>
    have hf := hintel f rfl
    have hhigh : f / 2 ^ 16 < 2 ^ 16 := by omega
    have hlow : f % 2 ^ 16 < 2 ^ 16 := Nat.mod_lt _ (by decide)
    have hsum : (f / 2 ^ 16) <<< 16 ||| f % 2 ^ 16 = f := by
      rw [← Nat.shiftLeft_add_eq_or_of_lt hlow, Nat.shiftLeft_eq]
      omega
    refine (readBits_reads (v := 1) (by decide) (by decide)).bind ?_
    rw [if_pos rfl]
    refine (readBits_reads (by decide) hhigh).bind ?_
    have h := (readBits_reads (by decide) hlow).bind_pure fun j =>
      { start w with intel_filesize := (f / 2 ^ 16) <<< 16 ||| j, header_read := true }
    rw [hsum] at h
    exact h

theorem intelWord_length : (intelWord intel).length % 16 = 1 := by
  cases intel with
  | none => rfl
  | some f => simp [intelWord]

/-- The length of a block is read behind one word or two, less the four bits before it. -/
theorem readBits24 (hb : Stands data begin p b) (hp : p % 16 = 4)
    (hw : Spells (wordBits data begin) p (bits 24 n)) (hn : n < 2 ^ 24) :
    ∃ b', readBits 24 b = some (n, b') ∧ Stands data begin (p + 24) b' := by
  obtain ⟨words, hwords, -⟩ := hb.1.pos
  have hleft := hb.1.left
  have hlt := hb.2
  obtain ⟨b', hread, hat, hless⟩ := readBits_at hb.1 (n := 24) (by decide) (by omega)
  rw [valueAt_bits hw, Nat.mod_eq_of_lt hn] at hread
  exact ⟨b', hread, hat, hless hlt⟩

section trees

variable {s : LZXState} {t : Trees}

theorem getD_le_of_run {ops : List LengthOp} {x m : Nat} {lens : List Nat} (hm : 16 ≤ m)
    (h : ∀ v ∈ lens, v ≤ m) : ∀ v ∈ LengthOp.run ops x lens, v ≤ m := by
  induction ops generalizing x lens with
  | nil => exact h
  | cons op ops ih =>
    apply ih
    intro v hv
    have hstored (old : Nat) : op.stored old ≤ 16 := by
      cases op <;> simp only [LengthOp.stored, difference] <;> omega
    rw [LengthOp.apply, splice] at hv
    obtain hv | hv := List.mem_append.mp hv
    · obtain hv | hv := List.mem_append.mp hv
      · exact h v (List.mem_of_mem_take hv)
      · rw [List.eq_of_mem_replicate hv]
        exact (hstored _).trans hm
    · exact h v (List.mem_of_mem_drop hv)

theorem zeroLen_le (nsyms m : Nat) : ∀ v ∈ zeroLen nsyms, v ≤ m := by
  intro v hv
  rw [List.eq_of_mem_replicate hv]
  exact Nat.zero_le m

/-- Codes that can be built are codes for the decoder. -/
theorem code_valid {elements : Nat} (ht : t.Valid elements) : t.code.Valid := by
  refine ⟨⟨ht.main_usable, fun s _ => ?_⟩, ⟨ht.len_usable, fun s _ => ?_⟩, ?_⟩
  · exact getD_le (getD_le_of_run le_rfl (getD_le_of_run le_rfl (zeroLen_le _ _))) s
  · exact getD_le (getD_le_of_run le_rfl (zeroLen_le _ _)) s
  · intro hal
    obtain ⟨al, hal⟩ := Option.isSome_iff_exists.mp hal
    obtain ⟨-, hle, huse⟩ := ht.align al hal
    refine ⟨huse, fun s _ => getD_le ?_ s⟩
    intro v hv
    change v ∈ splice (zeroLen 8) 0 (t.align.getD []) at hv
    rw [hal, splice] at hv
    obtain hv | hv := List.mem_append.mp hv
    · obtain hv | hv := List.mem_append.mp hv
      · simp at hv
      · exact (hle v hv).le
    · exact zeroLen_le 8 8 v (List.mem_of_mem_drop hv)

theorem zeroTable_length (nsyms nbits : Nat) :
    (zeroTable nsyms nbits).length = 2 ^ nbits + 2 * nsyms := by
  rw [zeroTable, List.length_replicate, Nat.one_shiftLeft, Nat.shiftLeft_eq]
  omega

theorem readAligned_reads {elements : Nat} (ht : t.Valid elements)
    (hs : s.aligntree_len = zeroLen 8 ∧ s.aligntree_table = zeroTable 8 7)
    (htype : s.block_type = if t.align.isSome then BLOCKTYPE_ALIGNED else BLOCKTYPE_VERBATIM) :
    ∃ table, (t.code.aligned → Leads 8 7 t.code.align table) ∧
      Reads (readAligned s) ((t.align.getD []).flatMap (bits 3))
        { s with aligntree_len := t.code.align, aligntree_table := table } := by
  rw [readAligned]
  cases hal : t.align with
  | none =>
    have hne : ¬ s.block_type = BLOCKTYPE_ALIGNED := by
      rw [htype, hal]
      decide
    have hcode : t.code.align = s.aligntree_len := by
      rw [Trees.code, hal, hs.1]
      exact splice_nil _ _
    refine ⟨s.aligntree_table, ?_, ?_⟩
    · intro h
      rw [Trees.code, hal] at h
      cases h
    · rw [if_neg hne, hcode]
      exact Reads.pure s
  | some al =>
    obtain ⟨hlen, hlt, huse⟩ := ht.align al hal
    have htrue : s.block_type = BLOCKTYPE_ALIGNED := by
      rw [htype, hal]
      rfl
    have hcode : t.code.align = splice s.aligntree_len 0 al := by
      rw [Trees.code, hal, hs.1]
      rfl
    have hshape : Shape 8 7 s.aligntree_table.length :=
      ⟨by decide, by decide, by rw [hs.2, zeroTable_length]⟩
    obtain ⟨status, table, hmake, -, hleads⟩ := makeDecodeTable_leads hshape huse
    have heach : Reads (readEach 3 al.length 0 s.aligntree_len) (al.flatMap (bits 3))
        (splice s.aligntree_len 0 al) := by
      apply readEach_reads (by decide) hlt
      rw [hs.1, hlen]
      decide
    rw [hlen, ← hcode] at heach
    refine ⟨table, fun _ => hleads, ?_⟩
    rw [if_pos htrue, Option.getD_some, ← List.append_nil (al.flatMap _)]
    exact heach.bind (lift_reads hmake (Reads.pure _))

theorem readMain_reads {elements : Nat} (ht : t.Valid elements) (hle : elements ≤ 656)
    (hs : s.maintree_len = zeroLen 664 ∧ s.maintree_table = zeroTable 664 11)
    (hpre : s.pretree = ⟨zeroTable 20 6, zeroLen 20⟩) (hel : s.main_elements = elements) :
    ∃ (pre : Pretree) (table : List Nat), Leads 664 11 t.code.main table ∧
      pre.table.length = 2 ^ 6 + 2 * 20 ∧ pre.len.length = 84 ∧
      Reads (readMain s) (t.low.word ++ t.high.word)
        { s with
          pretree := pre, maintree_len := t.code.main, maintree_table := table
          intel_started := s.intel_started || t.code.main.getD 0xE8 0 != 0 } := by
  have htab : s.pretree.table.length = 2 ^ 6 + 2 * 20 := by
    rw [hpre, zeroTable_length]
  have hlen : s.pretree.len.length = 84 := by
    rw [hpre]
    rfl
  have hzero : (zeroLen 664).length = 728 := List.length_replicate
  have hfit1 : 256 + 50 ≤ (zeroLen 664).length := by omega
  have hmid : (LengthOp.run t.low.ops 0 (zeroLen 664)).length = 728 :=
    (LengthOp.run_length ht.low.ops ht.low.covers hfit1).trans hzero
  have hfit2 : elements + 50 ≤ (LengthOp.run t.low.ops 0 (zeroLen 664)).length := by omega
  obtain ⟨pre1, ht1, hl1, hread1⟩ := readLengths_reads ht.low htab (by omega) hfit1
  obtain ⟨pre2, ht2, hl2, hread2⟩ := readLengths_reads ht.high (ht1.trans htab) (by omega) hfit2
  have hmain : t.code.main.length = 728 :=
    (LengthOp.run_length ht.high.ops ht.high.covers hfit2).trans hmid
  have hshape : Shape 664 11 s.maintree_table.length :=
    ⟨by decide, by decide, by rw [hs.2, zeroTable_length]⟩
  obtain ⟨status, table, hmake, -, hleads⟩ := makeDecodeTable_leads hshape ht.main_usable
  refine ⟨pre2, table, hleads, ht2.trans (ht1.trans htab), hl2.trans (hl1.trans hlen), ?_⟩
  rw [readMain, hs.1, hel, ← List.append_nil (Sent.word t.high)]
  refine hread1.bind (hread2.bind (lift_reads hmake ?_))
  refine lift_reads (getElem?_getD ?_) (Reads.pure _)
  change 0xE8 < t.code.main.length
  rw [hmain]
  decide

theorem readLen_reads {elements : Nat} (ht : t.Valid elements)
    (hs : s.lentree_len = zeroLen 249 ∧ s.lentree_table = zeroTable 249 10)
    (hpre : s.pretree.table.length = 2 ^ 6 + 2 * 20 ∧ s.pretree.len.length = 84) :
    ∃ (pre : Pretree) (table : List Nat), Leads 249 10 t.code.len table ∧
      Reads (readLen s) t.len.word
        { s with pretree := pre, lentree_len := t.code.len, lentree_table := table } := by
  have hzero : (zeroLen 249).length = 313 := List.length_replicate
  have hfit : 249 + 50 ≤ (zeroLen 249).length := by omega
  obtain ⟨pre, -, -, hread⟩ := readLengths_reads ht.len hpre.1 (by omega) hfit
  have hshape : Shape 249 10 s.lentree_table.length :=
    ⟨by decide, by decide, by rw [hs.2, zeroTable_length]⟩
  obtain ⟨status, table, hmake, -, hleads⟩ := makeDecodeTable_leads hshape ht.len_usable
  refine ⟨pre, table, hleads, ?_⟩
  rw [readLen, hs.1, ← List.append_nil (Sent.word t.len)]
  exact hread.bind (lift_reads hmake (Reads.pure _))

end trees

/-- The type and the length of a block, and then what the type asks for. -/
theorem readBlockHeader_at (w : Nat) (intel : Option Nat) (end_pos : Int) {block_type : Nat}
    {v : List Bool} (hb : Stands data begin p b) (hp : p % 16 = 1) (htype : block_type < 8) (hn : n < 2 ^ 24)
    (hw : Spells (wordBits data begin) p (bits 3 block_type ++ (bits 24 n ++ v))) :
    ∃ b', Stands data begin (p + 27) b' ∧ Spells (wordBits data begin) (p + 27) v ∧
      readBlockHeader (headed w intel) end_pos b =
        (do
          let s ← readAligned (opened w intel block_type n)
          if s.block_type = BLOCKTYPE_VERBATIM ∨ s.block_type = BLOCKTYPE_ALIGNED then
            return some (← readLen (← readMain s))
          else if s.block_type = BLOCKTYPE_UNCOMPRESSED then readOffsets s end_pos
          else return none : Bits (Option LZXState)) b' := by
  obtain ⟨hw3, hw⟩ := spells_append.mp hw
  obtain ⟨hw24, hv⟩ := spells_append.mp hw
  rw [bits_length] at hw24
  rw [bits_length, bits_length] at hv
  obtain ⟨b1, hread3, hb1⟩ := readBits_reads (n := 3) (by decide) htype data begin p b hb hw3
  rw [bits_length] at hb1
  obtain ⟨b2, hread24, hb2⟩ := readBits24 hb1 (by omega) hw24 hn
  refine ⟨b2, hb2, hv, ?_⟩
  have hleave : leaveUncompressed (headed w intel) b = some (headed w intel, b) := rfl
  rw [readBlockHeader, bind_run hleave, bind_run hread3, bind_run hread24]
  rfl

structure Coded (w : Nat) (intel : Option Nat) (t : Trees) (n : Nat) (s : LZXState) : Prop where
  loaded : Loaded t.code s
  size : s.window_size = 2 ^ w
  put : s = put s ([], fresh) n
  block_type : s.block_type = BLOCKTYPE_VERBATIM ∨ s.block_type = BLOCKTYPE_ALIGNED
  filesize : s.intel_filesize = intel.getD 0
  started : s.intel_started = (t.code.main.getD 0xE8 0 != 0)

theorem readBlockHeader_coded (intel : Option Nat) (end_pos : Int) {t : Trees} (hw : 15 ≤ w ∧ w ≤ 21)
    (ht : t.Valid (NUM_CHARS + 8 * position_slots.getD (w - 15) 0)) (hn : n < 2 ^ 24)
    (hb : Stands data begin p b) (hp : p % 16 = 1)
    (hspell : Spells (wordBits data begin) p
      (bits 3 (if t.align.isSome then BLOCKTYPE_ALIGNED else BLOCKTYPE_VERBATIM) ++
        (bits 24 n ++ t.word))) :
    ∃ s b', readBlockHeader (headed w intel) end_pos b = some (some s, b') ∧
      Stands data begin (p + 27 + t.word.length) b' ∧ Coded w intel t n s := by
  obtain ⟨ty, hty⟩ : ∃ ty, ty = if t.align.isSome then BLOCKTYPE_ALIGNED else BLOCKTYPE_VERBATIM :=
    ⟨_, rfl⟩
  rw [← hty] at hspell
  have hcoded : ty = BLOCKTYPE_VERBATIM ∨ ty = BLOCKTYPE_ALIGNED := by
    rw [hty]
    cases t.align.isSome
    · exact Or.inl rfl
    · exact Or.inr rfl
  have hlt : ty < 8 := by
    obtain h | h := hcoded <;> rw [h] <;> decide
  obtain ⟨b1, hb1, hv, hrun⟩ := readBlockHeader_at w intel end_pos hb hp hlt hn hspell
  obtain ⟨atable, haleads, hareads⟩ := readAligned_reads (s := opened w intel ty n) ht ⟨rfl, rfl⟩ hty
  obtain ⟨pre, mtable, hmleads, hptab, hplen, hmreads⟩ := readMain_reads
    (s := { opened w intel ty n with aligntree_len := t.code.align, aligntree_table := atable })
    ht (elements_le hw) ⟨rfl, rfl⟩ rfl rfl
  obtain ⟨pre', ltable, hlleads, hlreads⟩ := readLen_reads
    (s := { opened w intel ty n with
      aligntree_len := t.code.align, aligntree_table := atable
      pretree := pre, maintree_len := t.code.main, maintree_table := mtable
      intel_started := false || t.code.main.getD 0xE8 0 != 0 }) ht ⟨rfl, rfl⟩ ⟨hptab, hplen⟩
  have htail : Reads (do
      let s ← readAligned (opened w intel ty n)
      if s.block_type = BLOCKTYPE_VERBATIM ∨ s.block_type = BLOCKTYPE_ALIGNED then
        return some (← readLen (← readMain s))
      else if s.block_type = BLOCKTYPE_UNCOMPRESSED then readOffsets s end_pos
      else return none : Bits (Option LZXState)) t.word (some { opened w intel ty n with
        aligntree_len := t.code.align, aligntree_table := atable
        pretree := pre', maintree_len := t.code.main, maintree_table := mtable
        lentree_len := t.code.len, lentree_table := ltable
        intel_started := false || t.code.main.getD 0xE8 0 != 0 }) := by
    rw [Trees.word, ← List.append_assoc t.low.word]
    refine hareads.bind ?_
    rw [if_pos (by exact hcoded)]
    exact hmreads.bind (hlreads.bind_pure some)
  obtain ⟨b2, hread, hb2⟩ := htail data begin (p + 27) b1 hb1 hv
  refine ⟨_, b2, hrun.trans hread, hb2, ⟨hty, ⟨rfl, hmleads⟩, ⟨rfl, hlleads⟩, fun h => ⟨rfl, haleads h⟩⟩,
    rfl, ?_, hcoded, rfl, Bool.false_or _⟩
  have hwindow : Lz77.window (0xDC : Byte) (2 ^ w) [] = List.replicate (2 ^ w) 0xDC := rfl
  simp only [put, fresh]
  rfl

theorem content_length (tokens : List Token) (st : List Byte × Recent) :
    (expand tokens st).1.length = st.1.length + size tokens := by
  induction tokens generalizing st with
  | nil => rfl
  | cons t tokens ih =>
    have hsize : size (t :: tokens) = t.size + size tokens := by
      rw [size, List.map_cons, List.sum_cons, size]
    have hstep := t.apply_length st
    have hrec := ih (t.apply st)
    change (expand tokens (t.apply st)).1.length = _
    omega

/-- Without a word for 0xE8 there is none in the output. -/
theorem not_mem_expand {c : Code} {m : Nat} {tokens : List Token} {st : List Byte × Recent}
    (ht : ∀ t ∈ tokens, t.Valid c m) (hmain : c.main.getD 0xE8 0 = 0)
    (hst : (0xE8 : Byte) ∉ st.1) : (0xE8 : Byte) ∉ (expand tokens st).1 := by
  induction tokens generalizing st with
  | nil => exact hst
  | cons t tokens ih =>
    apply ih fun x hx => ht x (List.mem_cons_of_mem t hx)
    cases t with
    | literal v =>
      intro hmem
      obtain hmem | hmem := List.mem_append.mp hmem
      · exact hst hmem
      · have hv := (ht (.literal v) List.mem_cons_self).1
        rw [← List.mem_singleton.mp hmem] at hv
        exact absurd hmain hv.ne'
    | copy o len =>
      intro hmem
      obtain hmem | hmem := Lz77.mem_repeatBack _ _ hmem
      · exact hst hmem
      · exact absurd hmem (by decide)

theorem pySlice_front {bs out : List Byte} {rest : List Byte} (h : bs = out ++ rest) :
    pySlice bs 0 out.length = out := by
  subst h
  have hmin : min out.length (out ++ rest).length = out.length := by
    rw [List.length_append]
    omega
  rw [pySlice]
  simp only [le_refl, if_true, Int.toNat_zero, Nat.zero_min, List.drop_zero,
    Int.natCast_nonneg, Int.toNat_natCast, hmin]
  exact List.take_left' rfl

/-- What follows the blocks: the window goes to the output, and its calls are translated. -/
theorem decompress_finish {s s' : LZXState} {in_len : Int} {out rest : List Byte}
    (hf : s'.intel_filesize ≤ 2 ^ 31) (hn : 0 < out.length ∧ out.length ≤ 2 ^ 31)
    (hrun : (do blocks begin in_len out.length out.length (← readHeader s) :
      Bits (Option (Int × LZXState))) (BitBuffer.new ⟨data, begin⟩) = some (some (0, s'), b'))
    (hwin : s'.window = out ++ rest) (hpos : s'.window_posn = out.length)
    (hstart : s'.intel_started = false → (0xE8 : Byte) ∉ out) :
    ∃ f, decompress s ⟨data, begin⟩ in_len ⟨[], 0⟩ out.length = some (0, f) ∧
      f.data = undoCalls s'.intel_filesize out := by
  have hne : ¬ s'.window_posn = 0 := by omega
  have hzero : ((s'.window_posn : Nat) : Int) - (out.length : Nat) = 0 := by omega
  have hwrite : write ⟨[], 0⟩ out = ⟨out, out.length⟩ := by
    simp [write]
  have hslice := pySlice_front hwin
  have hrest : decompress s ⟨data, begin⟩ in_len ⟨[], 0⟩ out.length =
      (undoE8Preprocessing s'.intel_started s'.intel_filesize out.length ⟨out, out.length⟩).bind
        fun f => some (0, f) := by
    rw [decompress]
    simp only [hrun, Option.bind_eq_bind, Option.bind_some]
    rw [if_neg (by decide), if_neg hne, hzero, Int.zero_add, hslice, hwrite]
    rfl
  rw [hrest]
  cases hs : s'.intel_started with
  | true =>
    obtain ⟨f, hf', hdata⟩ := undoE8Preprocessing_eq hf hn.2 out.length
    rw [hf']
    exact ⟨f, rfl, hdata⟩
  | false =>
    have hno : ¬(out.length ≥ 10 ∧ false = true) := fun h => Bool.false_ne_true h.2
    refine ⟨⟨out, out.length⟩, ?_, ?_⟩
    · rw [undoE8Preprocessing, if_neg hno]
      rfl
    · rw [undoCalls, scan_of_not_mem (hstart hs)]

/-- One block that has the length that is asked for. -/
theorem blocks_once {s s1 s2 : LZXState} {in_len : Int} {b1 b2 : BitBuffer} (hn : 0 < n)
    (hstart : startBlock s (begin + in_len) b = some (some s1, b1))
    (hrest : s1.block_remaining = n)
    (hblock : runBlock s1 begin in_len b1 = some (some s2, b2)) :
    blocks begin in_len n n s b = some (some (0, s2), b2) := by
  obtain ⟨m, rfl⟩ : ∃ m, n = m + 1 := ⟨n - 1, by omega⟩
  have hpos : ((m + 1 : Nat) : Int) > 0 := by omega
  have htogo : ((m + 1 : Nat) : Int) -
      (if s1.block_remaining > ((m + 1 : Nat) : Int) then s1.block_remaining
        else ((m + 1 : Nat) : Int)) = 0 := by
    rw [hrest, if_neg (by omega), Int.sub_self]
  rw [blocks, if_pos hpos, bind_run hstart]
  simp only [htogo]
  rw [bind_run hblock]
  cases m with
  | zero => rfl
  | succ m => rfl

theorem tell_run (b : BitBuffer) : tell b = some (b.stream.pos, b) := rfl

/-- The tables are never read too far for the length of the data. -/
theorem tell_ok {in_len : Int} {words : Nat} (hb : Stands data begin p b) (hp : p ≤ 16 * words)
    (hin : (2 * words : Int) ≤ in_len) :
    ¬((b.stream.pos : Int) > begin + in_len ∧
      ((b.stream.pos : Int) > begin + in_len + 2 ∨ b.bits_left < 16)) := by
  obtain ⟨k, hk, hpos⟩ := hb.1.pos
  have hlt := hb.2
  have hstart := hb.1.start_le
  intro h
  have hle : b.stream.pos ≤ begin + 2 * k := by
    rw [hpos]
    exact Nat.min_le_right _ _
  omega

theorem runBlock_coded {t : Trees} {tokens : List Token} {s : LZXState} {in_len : Int}
    {words : Nat} (hw : w ≤ 21) (hc : Coded w intel t (LzxTokens.size tokens) s)
    (hcode : t.code.Valid) (htok : ∀ x ∈ tokens, x.Valid t.code (2 ^ w))
    (hfit : LzxTokens.size tokens ≤ 2 ^ w) (hb : Stands data begin p b)
    (hp : p ≤ 16 * words) (hin : (2 * words : Int) ≤ in_len)
    (hspell : Spells (wordBits data begin) p (tokens.flatMap (Token.word t.code))) :
    ∃ b', runBlock s begin in_len b =
      some (some (put s (expand tokens ([], fresh)) 0), b') := by
  have hsize : s.window_size ≤ 2 ^ 21 := by
    rw [hc.size]
    exact Nat.pow_le_pow_right Nat.two_pos hw
  have hinside : fresh.Inside s.window_size := by
    have hpos := Nat.two_pow_pos w
    rw [hc.size]
    exact ⟨⟨Nat.one_pos, hpos⟩, ⟨Nat.one_pos, hpos⟩, Nat.one_pos, hpos⟩
  have hroom : (([], fresh) : List Byte × Recent).1.length + LzxTokens.size tokens ≤
      s.window_size := by
    rw [hc.size, List.length_nil]
    omega
  have hread := decompressRounds_reads hcode hc.loaded (by rwa [hc.size]) hinside hsize hroom le_rfl
  rw [← hc.put] at hread
  obtain ⟨b', hrun, -⟩ := hread data begin p b hb hspell
  have hposn : s.window_posn = 0 := by
    rw [hc.put]
    rfl
  have hrem : s.block_remaining = LzxTokens.size tokens := by
    rw [hc.put]
    rfl
  have hand : s.window_posn &&& s.window_size - 1 = s.window_posn := by
    rw [hposn, Nat.zero_and]
  have hsame : { s with window_posn := s.window_posn &&& s.window_size - 1 } = s := by
    rw [hand]
  have hfits : ¬ (s.window_posn : Int) + s.block_remaining > s.window_size := by
    rw [hposn, hrem, hc.size]
    omega
  have hblock : decompressBlock s b =
      some (put s (expand tokens ([], fresh)) 0, b') := by
    rw [decompressBlock, hrem, Int.toNat_natCast, hrun]
  refine ⟨b', ?_⟩
  rw [runBlock, bind_run (tell_run b), bind_run (tell_run b)]
  change (if _ then _ else _ : Bits (Option LZXState)) b = _
  rw [if_neg (tell_ok hb hp hin)]
  simp only [hsame]
  rw [hand, if_neg hfits, if_pos hc.block_type, bind_run hblock]
  rfl

theorem decompress_coded {t : Trees} {tokens : List Token} {in_len : Int}
    (hw : 15 ≤ w ∧ w ≤ 21) (hintel : ∀ f ∈ intel, f ≤ 2 ^ 31)
    (hbody : (Body.coded t tokens).Valid w)
    (hn : 0 < (Body.coded t tokens).content.length ∧
      (Body.coded t tokens).content.length ≤ 2 ^ w)
    (hbegin : begin ≤ data.length)
    (hspell : Spells (wordBits data begin) 0 (codedWord intel t tokens))
    (hin : (2 * (((codedWord intel t tokens).length + 15) / 16) : Nat) ≤ in_len) :
    ∃ f, decompress (start w) ⟨data, begin⟩ in_len ⟨[], 0⟩
        (Body.coded t tokens).content.length = some (0, f) ∧
      f.data = undoCalls (intel.getD 0) (Body.coded t tokens).content := by
  obtain ⟨ht, htok⟩ := hbody
  have hlen : (Body.coded t tokens).content.length = LzxTokens.size tokens :=
    (content_length tokens ([], fresh)).trans (Nat.zero_add _)
  have hpow : 2 ^ w ≤ 2 ^ 21 := Nat.pow_le_pow_right Nat.two_pos hw.2
  have htotal : (codedWord intel t tokens).length = (intelWord intel).length + 27 + t.word.length +
      (tokens.flatMap (Token.word t.code)).length := by
    simp only [codedWord, headWord, List.length_append, bits_length]
    omega
  rw [codedWord, headWord, List.append_assoc, List.append_assoc] at hspell
  obtain ⟨hhead, hspell⟩ := spells_append.mp hspell
  obtain ⟨b0, hread0, hb0⟩ := readHeader_reads (w := w)
    (fun f hf => (hintel f hf).trans_lt (by decide)) data begin 0 _ (stands_new hbegin) hhead
  rw [Nat.zero_add] at hb0 hspell
  rw [← List.append_assoc (bits 24 _), ← List.append_assoc (bits 3 _)] at hspell
  obtain ⟨hblock, htokens⟩ := spells_append.mp hspell
  obtain ⟨s, b1, hread1, hb1, hc⟩ := readBlockHeader_coded intel
    (begin + in_len) hw ht (by omega) hb0 intelWord_length hblock
  have hskip : (intelWord intel).length + (bits 3 (Body.coded t tokens).block_type ++
      (bits 24 (Body.coded t tokens).content.length ++ t.word)).length =
      (intelWord intel).length + 27 + t.word.length := by
    simp only [List.length_append, bits_length]
    omega
  rw [hskip] at htokens
  rw [hlen] at hc
  have hbits : (intelWord intel).length + 27 + t.word.length ≤
      16 * (((codedWord intel t tokens).length + 15) / 16) := by omega
  have hin' : 2 * ((((codedWord intel t tokens).length + 15) / 16 : Nat) : Int) ≤ in_len := by
    omega
  obtain ⟨b2, hread2⟩ := runBlock_coded hw.2 hc (code_valid ht) htok (by omega) hb1 hbits
    hin' htokens
  have hstart : startBlock (headed w intel) (begin + in_len) b0 = some (some s, b1) := by
    rw [startBlock, if_pos (by exact (rfl : (0 : Int) = 0)), hread1]
  have hrem : s.block_remaining = ((Body.coded t tokens).content.length : Nat) := by
    rw [hc.put, hlen]
    rfl
  have hblocks := blocks_once hn.1 hstart hrem hread2
  have hfile : s.intel_filesize ≤ 2 ^ 31 := by
    rw [hc.filesize]
    cases intel with
    | none => exact Nat.zero_le _
    | some f => exact hintel f rfl
  have hput : (put s (expand tokens ([], fresh)) 0).intel_filesize = s.intel_filesize := rfl
  have he8 : s.intel_started = false → (0xE8 : Byte) ∉ (Body.coded t tokens).content := by
    intro hs
    have hzero : t.code.main.getD 0xE8 0 = 0 := by
      have hst := hc.started.symm.trans hs
      simpa using hst
    exact not_mem_expand htok hzero List.not_mem_nil
  rw [← hc.filesize, ← hput]
  exact decompress_finish hfile (by omega) ((bind_run hread0).trans hblocks) rfl rfl he8

section raw

theorem readBytes_run {b : BitBuffer} (h : b.stream.pos + n ≤ b.stream.data.length) :
    readBytes n b = some (slice b.stream.data b.stream.pos n,
      { b with stream := ⟨b.stream.data, b.stream.pos + n⟩ }) := by
  rw [readBytes, ByteFile.read, slice_length h]

/-- Behind the header the stream stands at the next word. -/
theorem readOffsets_run (s : LZXState) (end_pos : Int) (hb : Stands data begin p b)
    (hp : p % 16 = 12) (hlen : begin + (p + 4) / 8 + 12 ≤ data.length)
    (hend : begin + ((p + 4) / 8 + 12 : Nat) < end_pos) :
    ∃ R0 R1 R2 b', readOffsets s end_pos b =
        some (some { s with intel_started := true, R0, R1, R2 }, b') ∧
      b'.stream = ⟨data, begin + (p + 4) / 8 + 12⟩ := by
  obtain ⟨k, hk, hpos⟩ := hb.1.pos
  have hleft := hb.1.left
  have hlt := hb.2
  have htell : ¬ end_pos ≤ (b.stream.pos : Int) + 4 := by
    have hle : b.stream.pos ≤ begin + 2 * k := by
      rw [hpos]
      exact Nat.min_le_right _ _
    omega
  obtain ⟨b1, hens, hat, h16⟩ := ensureBits_at hb.1 (n := 16) (Or.inl (by decide))
  obtain ⟨k1, hk1, hpos1⟩ := hat.pos
  have hleft1 := hat.left
  have h20 : b1.bits_left > 16 := by omega
  have hback : ((b1.stream.pos : Int) + -2).toNat = begin + (p + 4) / 8 := by
    rw [hpos1]
    omega
  have hseek : seekCur (-2) b1 =
      some ((), { b1 with stream := ⟨data, begin + (p + 4) / 8⟩ }) := by
    have hstream : b1.stream.seekCur (-2) = ⟨data, begin + (p + 4) / 8⟩ := by
      rw [ByteFile.seekCur, hback, hat.data_eq]
    change some ((), { b1 with stream := b1.stream.seekCur (-2) }) = _
    rw [hstream]
  have hread (q : Nat) (hq : q + 4 ≤ data.length) :
      readBytes 4 { b1 with stream := ⟨data, q⟩ } =
        some (slice data q 4, { b1 with stream := ⟨data, q + 4⟩ }) := readBytes_run hq
  refine ⟨le (slice data (begin + (p + 4) / 8) 4), le (slice data (begin + (p + 4) / 8 + 4) 4),
    le (slice data (begin + (p + 4) / 8 + 4 + 4) 4),
    { b1 with stream := ⟨data, begin + (p + 4) / 8 + 12⟩ }, ?_, rfl⟩
  rw [readOffsets, bind_run (tell_run b)]
  change (if _ then _ else _ : Bits (Option LZXState)) b = _
  rw [if_neg htell, bind_run hens]
  change (if b1.bits_left > 16 then _ else _ : Bits (Option LZXState)) b1 = _
  rw [if_pos h20, bind_run hseek]
  change (readBytes 4 >>= _) _ = _
  rw [bind_run (hread _ (by omega)), bind_run (hread _ (by omega)), bind_run (hread _ (by omega))]
  rfl

theorem runBlock_raw {s : LZXState} {b : BitBuffer} {in_len : Int} {bytes : List Byte}
    (hposn : s.window_posn = 0) (hrem : s.block_remaining = bytes.length)
    (htype : s.block_type = BLOCKTYPE_UNCOMPRESSED) (hfit : bytes.length ≤ s.window_size)
    (hwin : s.window.length = s.window_size)
    (hbytes : slice b.stream.data b.stream.pos bytes.length = bytes)
    (hend : (b.stream.pos : Int) < begin + in_len) :
    runBlock s begin in_len b =
      some (some { s with
        window := bytes ++ s.window.drop bytes.length
        window_posn := bytes.length },
        { b with stream := ⟨b.stream.data, b.stream.pos + bytes.length⟩ }) := by
  have htell : ¬((b.stream.pos : Int) > begin + in_len ∧
      ((b.stream.pos : Int) > begin + in_len + 2 ∨ b.bits_left < 16)) := by omega
  have hstop : ¬ (b.stream.pos : Int) ≥ begin + in_len := by omega
  have hsame : { s with window_posn := s.window_posn &&& s.window_size - 1 } = s := by
    rw [hposn, Nat.zero_and, ← hposn]
  have hroom : ¬ (s.window_posn : Int) + s.block_remaining > s.window_size := by
    rw [hposn, hrem]
    omega
  have hcoded : ¬ (s.block_type = BLOCKTYPE_VERBATIM ∨ s.block_type = BLOCKTYPE_ALIGNED) := by
    rw [htype]
    decide
  have hmin : min s.block_remaining.toNat (s.window.length - s.window_posn) = bytes.length := by
    rw [hrem, hposn, hwin]
    omega
  have hread : readBytes bytes.length b =
      some (bytes, { b with stream := ⟨b.stream.data, b.stream.pos + bytes.length⟩ }) := by
    rw [readBytes, ByteFile.read, hbytes]
  have hcopy : decompressUncompress s b = some ({ s with
        window := bytes ++ s.window.drop bytes.length
        window_posn := bytes.length },
        { b with stream := ⟨b.stream.data, b.stream.pos + bytes.length⟩ }) := by
    have hto : (((0 : Nat) : Int) + (bytes.length : Int)).toNat = bytes.length := by omega
    rw [decompressUncompress, hmin, bind_run hread, hposn, hrem, List.take_zero, List.nil_append,
      Nat.zero_add, hto]
    rfl
  rw [runBlock, bind_run (tell_run b), bind_run (tell_run b)]
  change (if _ then _ else _ : Bits (Option LZXState)) b = _
  rw [if_neg htell]
  simp only [hsame]
  have hand : s.window_posn &&& s.window_size - 1 = s.window_posn := by
    rw [hposn, Nat.zero_and]
  rw [hand, if_neg hroom, if_neg hcoded, if_pos htype, bind_run (tell_run b)]
  change (if _ then _ else _ : Bits (Option LZXState)) b = _
  rw [if_neg hstop, bind_run hcopy]
  rfl

theorem decompress_raw {r : Recent} {bytes pre suf : List Byte} {in_len : Int}
    (hw : 15 ≤ w ∧ w ≤ 21) (hintel : ∀ f ∈ intel, f ≤ 2 ^ 31)
    (hn : 0 < bytes.length ∧ bytes.length ≤ 2 ^ w)
    (hin : (encode intel (.raw r bytes)).length ≤ in_len) :
    ∃ f, decompress (start w) ⟨pre ++ (encode intel (.raw r bytes) ++ suf), pre.length⟩ in_len
        ⟨[], 0⟩ bytes.length = some (0, f) ∧
      f.data = undoCalls (intel.getD 0) bytes := by
  have hpow : 2 ^ w ≤ 2 ^ 21 := Nat.pow_le_pow_right Nat.two_pos hw.2
  have hspell := spells_packBits pre
    (pack 4 r.R0 ++ (pack 4 r.R1 ++ (pack 4 r.R2 ++ (bytes ++ suf))))
    (headWord intel BLOCKTYPE_UNCOMPRESSED bytes.length)
  have hdata : pre ++ (encode intel (.raw r bytes) ++ suf) =
      pre ++ (packBits (headWord intel BLOCKTYPE_UNCOMPRESSED bytes.length) ++
        (pack 4 r.R0 ++ (pack 4 r.R1 ++ (pack 4 r.R2 ++ (bytes ++ suf))))) := by
    simp only [encode, List.append_assoc]
  have hfront : pre ++ (packBits (headWord intel BLOCKTYPE_UNCOMPRESSED bytes.length) ++
        (pack 4 r.R0 ++ (pack 4 r.R1 ++ (pack 4 r.R2 ++ (bytes ++ suf))))) =
      (pre ++ (packBits (headWord intel BLOCKTYPE_UNCOMPRESSED bytes.length) ++
        (pack 4 r.R0 ++ (pack 4 r.R1 ++ pack 4 r.R2)))) ++ (bytes ++ suf) := by
    simp only [List.append_assoc]
  have hmod : (intelWord intel).length % 16 = 1 := intelWord_length
  have hhead : (headWord intel BLOCKTYPE_UNCOMPRESSED bytes.length).length =
      (intelWord intel).length + 27 := by
    simp only [headWord, List.length_append, bits_length]
  have hplace : (pre ++ (packBits (headWord intel BLOCKTYPE_UNCOMPRESSED bytes.length) ++
        (pack 4 r.R0 ++ (pack 4 r.R1 ++ pack 4 r.R2)))).length =
      pre.length + ((intelWord intel).length + 27 + 4) / 8 + 12 := by
    simp only [List.length_append, packBits_length, pack_length, hhead]
    omega
  have hsize : (encode intel (.raw r bytes)).length =
      ((intelWord intel).length + 27 + 4) / 8 + 12 + bytes.length := by
    simp only [encode, List.length_append, packBits_length, pack_length, hhead]
    omega
  rw [hdata]
  rw [hfront] at hspell ⊢
  obtain ⟨front, hfr⟩ : ∃ front, front = pre ++
      (packBits (headWord intel BLOCKTYPE_UNCOMPRESSED bytes.length) ++
        (pack 4 r.R0 ++ (pack 4 r.R1 ++ pack 4 r.R2))) := ⟨_, rfl⟩
  rw [← hfr] at hspell hplace ⊢
  obtain ⟨data, hdat⟩ : ∃ data, data = front ++ (bytes ++ suf) := ⟨_, rfl⟩
  have hdlen : data.length = front.length + (bytes.length + suf.length) := by
    rw [hdat, List.length_append, List.length_append]
  have hbytes : slice data front.length bytes.length = bytes := by
    rw [hdat, slice, List.drop_left, List.take_left']
    rfl
  rw [← hdat] at hspell ⊢
  rw [headWord] at hspell
  obtain ⟨hhd, hspell⟩ := spells_append.mp hspell
  obtain ⟨b0, hread0, hb0⟩ := readHeader_reads (w := w)
    (fun f hf => (hintel f hf).trans_lt (by decide)) data pre.length 0 _
    (stands_new (by omega)) hhd
  rw [Nat.zero_add] at hb0 hspell
  rw [← List.append_nil (bits 24 _)] at hspell
  obtain ⟨b1, hb1, -, hrun⟩ := readBlockHeader_at w intel (pre.length + in_len) hb0 hmod
    (by decide) (by omega) hspell
  obtain ⟨R0, R1, R2, b2, hoff, hstream⟩ := readOffsets_run
    (opened w intel BLOCKTYPE_UNCOMPRESSED bytes.length) (pre.length + in_len) hb1 (by omega) (by omega) (by omega)
  rw [← hplace] at hstream
  have hstart : startBlock (headed w intel) (pre.length + in_len) b0 =
      some (some { opened w intel BLOCKTYPE_UNCOMPRESSED bytes.length with
        intel_started := true, R0, R1, R2 }, b2) := by
    rw [startBlock, if_pos (by exact (rfl : (0 : Int) = 0)), hrun]
    exact hoff
  have hposn : b2.stream.pos = front.length := congrArg ByteFile.pos hstream
  have hdata2 : b2.stream.data = data := congrArg ByteFile.data hstream
  have hblock : runBlock { opened w intel BLOCKTYPE_UNCOMPRESSED bytes.length with
        intel_started := true, R0, R1, R2 } pre.length in_len b2 =
      some (some { opened w intel BLOCKTYPE_UNCOMPRESSED bytes.length with
        intel_started := true, R0, R1, R2
        window := bytes ++ (List.replicate (2 ^ w) 0xDC).drop bytes.length
        window_posn := bytes.length },
        { b2 with stream := ⟨data, front.length + bytes.length⟩ }) := by
    rw [← hposn, ← hdata2]
    refine runBlock_raw rfl rfl rfl hn.2 (List.length_replicate) ?_ (by omega)
    rw [hposn, hdata2, hbytes]
  have hblocks := blocks_once hn.1 hstart rfl hblock
  have hfile : intel.getD 0 ≤ 2 ^ 31 := by
    cases intel with
    | none => exact Nat.zero_le _
    | some f => exact hintel f rfl
  exact decompress_finish hfile (by omega) ((bind_run hread0).trans hblocks) rfl rfl
    (fun h => absurd h Bool.noConfusion)

end raw

/-- One block of data, wherever it stands, is decoded to what it stands for. -/
theorem decompress_encode {body : Body} (pre suf : List Byte) {in_len : Int}
    (hw : 15 ≤ w ∧ w ≤ 21) (hintel : ∀ f ∈ intel, f ≤ 2 ^ 31) (hbody : body.Valid w)
    (hn : 0 < body.content.length ∧ body.content.length ≤ 2 ^ w)
    (hin : (encode intel body).length ≤ in_len) :
    ∃ f, decompress (start w) ⟨pre ++ (encode intel body ++ suf), pre.length⟩ in_len ⟨[], 0⟩
        body.content.length = some (0, f) ∧
      f.data = undoCalls (intel.getD 0) body.content := by
  cases body with
  | raw r bytes => exact decompress_raw hw hintel hn hin
  | coded t tokens =>
    have hbegin : pre.length ≤ (pre ++ (packBits (codedWord intel t tokens) ++ suf)).length := by
      rw [List.length_append]
      exact Nat.le_add_right _ _
    have hlen : (2 * (((codedWord intel t tokens).length + 15) / 16) : Nat) ≤ in_len := by
      rw [← packBits_length]
      exact hin
    exact decompress_coded hw hintel hbody hn hbegin (spells_packBits pre suf _) hlen

section sample

def flatPretree : List Nat := List.replicate 12 4 ++ List.replicate 8 5

def runTrees : Trees where
  align := none
  low := ⟨flatPretree, [.manyZeros 31, .manyZeros 26, .one 16, .manyZeros 31, .manyZeros 31,
    .manyZeros 31, .zeros 1]⟩
  high := ⟨flatPretree, [.one 0, .one 0, .one 0, .one 16, .manyZeros 31, .manyZeros 31,
    .manyZeros 31, .manyZeros 31, .manyZeros 12]⟩
  len := ⟨flatPretree, [.manyZeros 31, .manyZeros 31, .manyZeros 31, .manyZeros 31,
    .manyZeros 25]⟩

def runBody : Body := .coded runTrees [.literal 97, .copy .r0 5]

theorem flatPretree_usable : Usable 20 6 flatPretree :=
  usable_of_kraft (by decide) (by decide) (by decide)

theorem runTrees_valid : runTrees.Valid 496 where
  low := ⟨by decide, by decide, flatPretree_usable, by decide, by decide⟩
  high := ⟨by decide, by decide, flatPretree_usable, by decide, by decide⟩
  len := ⟨by decide, by decide, flatPretree_usable, by decide, by decide⟩
  main_usable := usable_of_kraft (by decide) (by decide +kernel) (by decide +kernel)
  len_usable := usable_of_empty (by decide +kernel) (by decide +kernel)
  align := by
    intro al h
    cases h

theorem runBody_valid : runBody.Valid 15 := by
  refine ⟨runTrees_valid, ?_⟩
  decide +kernel

theorem runBody_content : runBody.content = List.replicate 6 97 := by
  decide +kernel

end sample

/-- A new decoder takes a block in, of any type, to the bytes that went into it. -/
theorem new_decompress {body : Body} {pre suf : List Byte} {in_len : Int}
    (hw : 15 ≤ w ∧ w ≤ 21) (hintel : ∀ f ∈ intel, f ≤ 2 ^ 31) (hbody : body.Valid w)
    (hn : 0 < body.content.length ∧ body.content.length ≤ 2 ^ w)
    (hin : (encode intel body).length ≤ in_len) :
    ∃ f, (do
        let s ← LZXState.new w
        decompress s ⟨pre ++ (encode intel body ++ suf), pre.length⟩ in_len ⟨[], 0⟩
          body.content.length) = some (0, f) ∧
      f.data = undoCalls (intel.getD 0) body.content := by
  rw [new_eq hw]
  exact decompress_encode pre suf hw hintel hbody hn hin

/-- Behind two bytes and before one. -/
theorem new_decompress_run :
    ∃ f, (do
        let s ← LZXState.new 15
        decompress s ⟨[1, 2] ++ (encode none runBody ++ [3]), [1, 2].length⟩
          (encode none runBody).length ⟨[], 0⟩ runBody.content.length) = some (0, f) ∧
      f.data = undoCalls 0 runBody.content := by
  have hn : 0 < runBody.content.length ∧ runBody.content.length ≤ 2 ^ 15 := by
    rw [runBody_content]
    decide
  exact new_decompress (by decide) (by decide) runBody_valid hn le_rfl

theorem bind_eq_some {α β : Type} {f : Bits α} {g : α → Bits β} {r : β × BitBuffer}
    (h : (f >>= g) b = some r) : ∃ a b', f b = some (a, b') ∧ g a b' = some r := by
  change (f b >>= fun x => g x.1 x.2) = _ at h
  obtain ⟨x, hx, hr⟩ := Option.bind_eq_some_iff.mp h
  exact ⟨x.1, x.2, hx, hr⟩

theorem blocks_done {start_pos in_len togo : Int} {rounds : Nat} {s : LZXState} (h : togo ≤ 0) :
    blocks start_pos in_len rounds togo s b = some (some (togo, s), b) := by
  cases rounds with
  | zero => rfl
  | succ rounds =>
    rw [blocks, if_neg (by omega)]
    rfl

/-- The loop over blocks that ends with nothing to go went around once. -/
theorem blocks_inv {start_pos in_len : Int} {n : Nat} {s s' : LZXState} (hn : 0 < n)
    (hrun : blocks start_pos in_len n n s b = some (some (0, s'), b')) :
    ∃ s2 b2, startBlock s (start_pos + in_len) b = some (some s2, b2) ∧ s2.block_remaining ≤ n ∧
      runBlock s2 start_pos in_len b2 = some (some s', b') := by
  obtain ⟨m, rfl⟩ : ∃ m, n = m + 1 := ⟨n - 1, by omega⟩
  have hpos : ((m + 1 : Nat) : Int) > 0 := by omega
  rw [blocks, if_pos hpos] at hrun
  obtain ⟨r, b2, hstart, hrun⟩ := bind_eq_some hrun
  cases r with
  | none => cases hrun
  | some s2 =>
    obtain ⟨r, b3, hblock, hrun⟩ := bind_eq_some hrun
    cases r with
    | none => cases hrun
    | some s3 =>
      simp only at hrun
      rw [blocks_done (by split <;> omega)] at hrun
      obtain ⟨hpair, hb⟩ := Prod.mk.inj (Option.some.inj hrun)
      obtain ⟨htogo, hs⟩ := Prod.mk.inj (Option.some.inj hpair)
      rw [hs, hb] at hblock
      refine ⟨s2, b2, hstart, ?_, hblock⟩
      split at htogo <;> omega

/-- One block is read, no longer than `out_len`, and `f` is the end of the window behind it. -/
def OneBlock (s : LZXState) (in_f : ByteFile) (in_len : Int) (out_f : ByteFile) (out_len : Nat)
    (f : ByteFile) : Prop :=
  ∃ s1 s2 s3 b1 b2 b3, readHeader s (BitBuffer.new in_f) = some (s1, b1) ∧
    startBlock s1 (in_f.pos + in_len) b1 = some (some s2, b2) ∧ s2.block_remaining ≤ out_len ∧
    runBlock s2 in_f.pos in_len b2 = some (some s3, b3) ∧
    undoE8Preprocessing s3.intel_started s3.intel_filesize out_len
      (write out_f (pySlice s3.window
        ((if s3.window_posn = 0 then s3.window_size else s3.window_posn) - (out_len : Int))
        ((if s3.window_posn = 0 then s3.window_size else s3.window_posn) - (out_len : Int)
          + out_len))) = some f

/-- Whatever the data, success means that one block was read and that it was not too long. -/
theorem decompress_one_block {s : LZXState} {in_f out_f f : ByteFile} {in_len : Int} {out_len : Nat}
    (hn : 0 < out_len) (hrun : decompress s in_f in_len out_f out_len = some (0, f)) :
    OneBlock s in_f in_len out_f out_len f := by
  obtain ⟨r, hread, hrun⟩ := Option.bind_eq_some_iff.mp hrun
  obtain ⟨o, b3⟩ := r
  obtain ⟨s1, b1, hheader, hblocks⟩ := bind_eq_some hread
  cases o with
  | none => cases hrun
  | some r =>
    obtain ⟨togo, s3⟩ := r
    simp only at hrun
    by_cases hzero : togo = 0
    · subst hzero
      rw [if_neg (by decide)] at hrun
      obtain ⟨s2, b2, hstart, hle, hblock⟩ := blocks_inv hn hblocks
      obtain ⟨out_f', hundo, hf⟩ := Option.bind_eq_some_iff.mp hrun
      obtain rfl := (Prod.mk.inj (Option.some.inj hf)).2
      exact ⟨s1, s2, s3, b1, b2, b3, hheader, hstart, hle, hblock, hundo⟩
    · rw [if_pos hzero] at hrun
      cases hrun

theorem decompress_one_block_run :
    ∃ f, OneBlock (start 15) ⟨[] ++ (encode none runBody ++ []), 0⟩ (encode none runBody).length
      ⟨[], 0⟩ runBody.content.length f := by
  have hn : 0 < runBody.content.length ∧ runBody.content.length ≤ 2 ^ 15 := by
    rw [runBody_content]
    decide
  have hintel : ∀ f ∈ (none : Option Nat), f ≤ 2 ^ 31 := by decide
  obtain ⟨f, hrun, -⟩ := decompress_encode [] [] (by decide) hintel runBody_valid hn le_rfl
  exact ⟨f, decompress_one_block hn.1 hrun⟩

end AipcOs.LzxRoundTrip
