import AipcOs.StructBytes
import AipcOs.MsbBits

/-! aipc-nand-extract/_vendor/wincedecompr.py: BitBuffer, as a place in the bits of the 16-bit
words of its stream. -/
namespace AipcOs.LzxBits
open ByteMemory StructBytes MsbBits

/-- io.BytesIO, as far as it is read here. -/
structure ByteFile where
  data : List Byte
  pos : Nat

def ByteFile.read (f : ByteFile) (n : Nat) : List Byte × ByteFile :=
  (slice f.data f.pos n, { f with pos := f.pos + (slice f.data f.pos n).length })

def ByteFile.seekCur (f : ByteFile) (d : Int) : ByteFile := { f with pos := (f.pos + d).toNat }

structure BitBuffer where
  buffer : Word
  bits_left : Int
  stream : ByteFile

/-- What is read from the bits; `none` stands for a Python exception. -/
abbrev Bits (α : Type) := StateT BitBuffer Option α

def BitBuffer.new (f : ByteFile) : BitBuffer := ⟨0, 0, f⟩

/-- One round of the loop of ensure_bits, where the shift count is not negative. -/
def refill (b : BitBuffer) : BitBuffer :=
  let (lo, f) := b.stream.read 1
  let (hi, f) := f.read 1
  let word : Word := (hi.headD 0).setWidth 32 <<< 8 ||| (lo.headD 0).setWidth 32
  { buffer := b.buffer ||| word <<< (32 - 16 - b.bits_left).toNat
    bits_left := b.bits_left + 16
    stream := f }

theorem refill_left (b : BitBuffer) : (refill b).bits_left = b.bits_left + 16 := rfl

def ensureBits (bits : Nat) (b : BitBuffer) : Option (Unit × BitBuffer) :=
  if b.bits_left < bits then
    if 32 - 16 - b.bits_left < 0 then none else ensureBits bits (refill b)
  else some ((), b)
termination_by (bits - b.bits_left).toNat
decreasing_by
  rw [refill_left]
  omega

def peekBits (bits : Nat) (b : BitBuffer) : Nat := b.buffer.toNat >>> (32 - bits % 32)

def removeBits (bits : Nat) (b : BitBuffer) : BitBuffer :=
  { b with buffer := b.buffer <<< bits, bits_left := b.bits_left - bits }

def readBits (bits : Nat) : Bits Nat :=
  if bits > 0 then do
    ensureBits bits
    let b ← get
    set (removeBits bits b)
    return peekBits bits b
  else return 0

/-- A byte of the stream; past its end there are zeros. -/
def byteAt (data : List Byte) (i : Nat) : Byte := data.getD i 0

def wordBits (data : List Byte) (start : Nat) : Stream' Bool := fun n =>
  (byteAt data (start + 2 * (n / 16) + 1) ++ byteAt data (start + 2 * (n / 16))).getMsbD (n % 16)

/-- The buffer stands before bit `p` of the words from `start` on. -/
structure At (data : List Byte) (start p : Nat) (b : BitBuffer) : Prop where
  data_eq : b.stream.data = data
  start_le : start ≤ data.length
  pos : ∃ words : Nat, (16 * words : Int) = p + b.bits_left ∧
    b.stream.pos = min data.length (start + 2 * words)
  left : 0 ≤ b.bits_left ∧ b.bits_left ≤ 32
  bit : ∀ i < 32, b.buffer.getMsbD i =
    (decide ((i : Int) < b.bits_left) && (wordBits data start).get (p + i))

variable {data : List Byte} {start p : Nat} {b : BitBuffer}

theorem at_new (h : start ≤ data.length) : At data start 0 (BitBuffer.new ⟨data, start⟩) := by
  refine ⟨rfl, h, ⟨0, rfl, ?_⟩, ⟨le_rfl, Int.le_of_lt (by decide : (0 : Int) < 32)⟩, ?_⟩
  · exact (Nat.min_eq_right h).symm
  · intro i _
    have hi : ¬(i : Int) < 0 := by omega
    simp [BitBuffer.new, hi]

theorem read_one (f : ByteFile) (hpos : f.pos ≤ f.data.length) :
    (f.read 1).1.headD 0 = byteAt f.data f.pos ∧
      (f.read 1).2 = ⟨f.data, min f.data.length (f.pos + 1)⟩ := by
  simp only [ByteFile.read, slice, byteAt]
  by_cases h : f.pos < f.data.length
  · rw [List.drop_eq_getElem_cons h]
    simp only [List.take_succ_cons, List.take_zero, List.headD_cons, List.length_singleton]
    rw [List.getD_eq_getElem _ _ h, Nat.min_eq_right h]
    exact ⟨rfl, rfl⟩
  · rw [List.drop_eq_nil_of_le (by omega), List.getD_eq_default _ _ (by omega)]
    have hend : f.pos = f.data.length := by omega
    simp only [List.take_nil, List.headD_nil, List.length_nil, Nat.add_zero]
    rw [Nat.min_eq_left (by omega), ← hend]
    exact ⟨trivial, rfl⟩

theorem word_eq (hi lo : Byte) :
    (hi.setWidth 32 <<< 8 ||| lo.setWidth 32 : Word) = (hi ++ lo).setWidth 32 := by
  apply BitVec.eq_of_getLsbD_eq
  intro i hi
  rw [BitVec.getLsbD_or, BitVec.getLsbD_shiftLeft, BitVec.getLsbD_setWidth, BitVec.getLsbD_setWidth,
    BitVec.getLsbD_setWidth, BitVec.getLsbD_append]
  by_cases h8 : i < 8
  · simp [h8, hi]
  · rw [BitVec.getLsbD_of_ge lo i (by omega)]
    simp [h8, hi]
    omega

theorem word_getMsbD (w : BitVec 16) (n i : Nat) (hn : n ≤ 16) (hi : i < 32) :
    ((w.setWidth 32 : Word) <<< (16 - n)).getMsbD i =
      (decide (n ≤ i ∧ i < n + 16) && w.getMsbD (i - n)) := by
  rw [BitVec.getMsbD_shiftLeft, BitVec.getMsbD_setWidth]
  by_cases hin : n ≤ i ∧ i < n + 16
  · have hidx : i + (16 - n) + 16 - 32 = i - n := by omega
    have h1 : i + (16 - n) < 32 := by omega
    have h2 : 32 - 16 ≤ i + (16 - n) := by omega
    rw [hidx, decide_eq_true h2, decide_eq_true hin]
  · rw [decide_eq_false hin, Bool.false_and]
    by_cases hlo : n ≤ i
    · rw [BitVec.getMsbD_of_ge _ _ (by omega), Bool.and_false]
    · have h2 : ¬ 32 - 16 ≤ i + (16 - n) := by omega
      rw [decide_eq_false h2, Bool.false_and]

theorem byteAt_min (data : List Byte) (i : Nat) : byteAt data (min data.length i) = byteAt data i := by
  by_cases h : i ≤ data.length
  · rw [Nat.min_eq_right h]
  · rw [byteAt, byteAt, List.getD_eq_default _ _ (by omega), List.getD_eq_default _ _ (by omega)]

theorem refill_eq (b : BitBuffer) (hpos : b.stream.pos ≤ b.stream.data.length) :
    refill b =
      { buffer := b.buffer |||
          (byteAt b.stream.data (b.stream.pos + 1) ++ byteAt b.stream.data b.stream.pos).setWidth 32
            <<< (32 - 16 - b.bits_left).toNat
        bits_left := b.bits_left + 16
        stream := ⟨b.stream.data, min b.stream.data.length (b.stream.pos + 2)⟩ } := by
  obtain ⟨hlo, hf⟩ := read_one b.stream hpos
  obtain ⟨hhi, hf'⟩ := read_one (b.stream.read 1).2 (by rw [hf]; exact Nat.min_le_left _ _)
  rw [hf] at hhi hf'
  rw [byteAt_min] at hhi
  have hmin : min b.stream.data.length (min b.stream.data.length (b.stream.pos + 1) + 1) =
      min b.stream.data.length (b.stream.pos + 2) := by
    omega
  simp only [refill, hf, hf', hlo, hhi, word_eq, hmin]

theorem refill_at (h : At data start p b) (hleft : b.bits_left ≤ 16) :
    At data start p (refill b) := by
  obtain ⟨words, hwords, hpos⟩ := h.pos
  obtain ⟨hle0, -⟩ := h.left
  have hlen : b.stream.pos ≤ b.stream.data.length := by
    rw [h.data_eq, hpos]
    exact Nat.min_le_left _ _
  rw [refill_eq b hlen, h.data_eq]
  refine ⟨rfl, h.start_le, ⟨words + 1, ?_, ?_⟩, ⟨?_, ?_⟩, ?_⟩
  · change (16 * ((words + 1 : Nat) : Int) : Int) = p + (b.bits_left + 16)
    omega
  · change min data.length (b.stream.pos + 2) = min data.length (start + 2 * (words + 1))
    omega
  · change 0 ≤ b.bits_left + 16
    omega
  · change b.bits_left + 16 ≤ 32
    omega
  · intro i hi
    obtain ⟨n, hn⟩ : ∃ n : Nat, b.bits_left = n := ⟨b.bits_left.toNat, by omega⟩
    have hshift : (32 - 16 - b.bits_left).toNat = 16 - n := by omega
    have hbyte : byteAt data b.stream.pos = byteAt data (start + 2 * words) := by
      rw [hpos, byteAt_min]
    have hbyte' : byteAt data (b.stream.pos + 1) = byteAt data (start + 2 * words + 1) := by
      rw [← byteAt_min, ← byteAt_min (i := start + 2 * words + 1), hpos]
      congr 1
      omega
    simp only [BitVec.getMsbD_or, hshift]
    rw [h.bit i hi, word_getMsbD _ n i (by omega) hi, hbyte, hbyte', hn]
    by_cases hold : i < n
    · have h2 : ¬(n ≤ i ∧ i < n + 16) := by omega
      have h3 : (i : Int) < n + 16 := by omega
      rw [decide_eq_true (Int.ofNat_lt.mpr hold), decide_eq_false h2, decide_eq_true h3,
        Bool.false_and, Bool.or_false]
    · rw [decide_eq_false (fun hlt => hold (Int.ofNat_lt.mp hlt)), Bool.false_and, Bool.false_or]
      by_cases hnew : i < n + 16
      · have h2 : n ≤ i ∧ i < n + 16 := by omega
        have h3 : (i : Int) < n + 16 := by omega
        have hdiv : (p + i) / 16 = words := by omega
        have hmod : (p + i) % 16 = i - n := by omega
        rw [decide_eq_true h2, decide_eq_true h3]
        simp only [wordBits, Stream'.get, hdiv, hmod]
      · have h2 : ¬(n ≤ i ∧ i < n + 16) := by omega
        have h3 : ¬ (i : Int) < n + 16 := by omega
        rw [decide_eq_false h2, decide_eq_false h3]
        rfl

/-- Sixteen bits and one more are always to be had. -/
theorem ensureBits_at (h : At data start p b) {n : Nat}
    (hn : n ≤ 17 ∨ (n : Int) ≤ b.bits_left ∨ b.bits_left ≤ 16 ∧ (n : Int) ≤ b.bits_left + 16) :
    ∃ b', ensureBits n b = some ((), b') ∧ At data start p b' ∧ (n : Int) ≤ b'.bits_left := by
  by_cases hlt : b.bits_left < n
  · have hle : b.bits_left ≤ 16 := by omega
    have hshift : ¬ 32 - 16 - b.bits_left < 0 := by omega
    have hnext := refill_at h hle
    rw [ensureBits, if_pos hlt, if_neg hshift]
    by_cases hlt' : (refill b).bits_left < n
    · have hl := refill_left b
      have h0 := h.left.1
      have hle' : (refill b).bits_left ≤ 16 := by omega
      have hshift' : ¬ 32 - 16 - (refill b).bits_left < 0 := by omega
      have hl' := refill_left (refill b)
      rw [ensureBits, if_pos hlt', if_neg hshift', ensureBits, if_neg (by omega)]
      exact ⟨_, rfl, refill_at hnext hle', by omega⟩
    · rw [ensureBits, if_neg hlt']
      exact ⟨_, rfl, hnext, by omega⟩
  · rw [ensureBits, if_neg hlt]
    exact ⟨b, rfl, h, by omega⟩

theorem removeBits_at (h : At data start p b) {n : Nat} (hn : (n : Int) ≤ b.bits_left) :
    At data start (p + n) (removeBits n b) := by
  obtain ⟨words, hwords, hpos⟩ := h.pos
  have hleft := h.left
  refine ⟨h.data_eq, h.start_le, ⟨words, ?_, hpos⟩, ?_, ?_⟩
  · simp only [removeBits]
    omega
  · simp only [removeBits]
    omega
  · intro i hi
    change (b.buffer <<< n).getMsbD i =
      (decide ((i : Int) < b.bits_left - n) && (wordBits data start).get (p + n + i))
    rw [BitVec.getMsbD_shiftLeft]
    by_cases hin : i + n < 32
    · rw [h.bit (i + n) hin, Nat.add_assoc, Nat.add_comm n i]
      congr 1
      apply decide_eq_decide.mpr
      omega
    · have hout : ¬ (i : Int) < b.bits_left - n := by omega
      rw [BitVec.getMsbD_of_ge _ _ (by omega), decide_eq_false hout, Bool.false_and]

theorem toNat_shift_bits (x : Word) {n : Nat} (hn : n ≤ 32) :
    bits n (x.toNat >>> (32 - n)) = (List.range n).map x.getMsbD := by
  apply List.ext_getElem (by simp)
  intro i h1 _
  rw [bits_length] at h1
  rw [bits_getElem, List.getElem_map, List.getElem_range, Nat.testBit_shiftRight,
    BitVec.getMsbD_eq_getLsbD, BitVec.getLsbD, decide_eq_true (by omega), Bool.true_and]
  congr 1
  omega

theorem toNat_shift_lt (x : Word) {n : Nat} (hn : n ≤ 32) : x.toNat >>> (32 - n) < 2 ^ n := by
  rw [Nat.shiftRight_eq_div_pow, Nat.div_lt_iff_lt_mul (Nat.two_pow_pos _), ← Nat.pow_add,
    Nat.add_sub_cancel' hn]
  exact x.isLt

theorem take_eq_map (s : Stream' Bool) (n : Nat) :
    s.take n = (List.range n).map fun i => s.get i := by
  apply List.ext_getElem?
  intro i
  by_cases hi : i < n
  · rw [Stream'.getElem?_take hi, List.getElem?_map, List.getElem?_range hi]
    rfl
  · rw [List.getElem?_eq_none (by rw [Stream'.length_take]; omega),
      List.getElem?_eq_none (by simp; omega)]

/-- The top of the buffer is the number at `p`. -/
theorem top_at (h : At data start p b) {n : Nat} (hn : (n : Int) ≤ b.bits_left) :
    b.buffer.toNat >>> (32 - n) = valueAt (wordBits data start) p n := by
  have hleft := h.left
  have hle : n ≤ 32 := by omega
  apply bits_inj (toNat_shift_lt _ hle) (valueAt_lt _ _ _)
  have hw := bits_value (((wordBits data start).drop p).take n)
  rw [Stream'.length_take] at hw
  rw [valueAt, hw, toNat_shift_bits _ hle, take_eq_map]
  apply List.map_congr_left
  intro i hi
  have hi' : i < n := List.mem_range.mp hi
  have hlt : (i : Int) < b.bits_left := by omega
  rw [h.bit i (by omega), decide_eq_true hlt, Bool.true_and, Stream'.get_drop]

theorem peekBits_at (h : At data start p b) {n : Nat} (hn : (n : Int) ≤ b.bits_left)
    (hn32 : n < 32) : peekBits n b = valueAt (wordBits data start) p n := by
  rw [peekBits, Nat.mod_eq_of_lt hn32, top_at h hn]

theorem readBits_at (h : At data start p b) {n : Nat} (hn32 : n < 32)
    (hn : n ≤ 17 ∨ (n : Int) ≤ b.bits_left ∨ b.bits_left ≤ 16 ∧ (n : Int) ≤ b.bits_left + 16) :
    ∃ b', readBits n b = some (valueAt (wordBits data start) p n, b') ∧
      At data start (p + n) b' ∧ (b.bits_left < 32 → b'.bits_left < 32) := by
  by_cases h0 : n > 0
  · obtain ⟨b', hens, hat, hleft⟩ := ensureBits_at h hn
    have hle := hat.left.2
    refine ⟨removeBits n b', ?_, removeBits_at hat hleft, ?_⟩
    · rw [← peekBits_at hat hleft hn32, readBits, if_pos h0]
      change (ensureBits n b >>= _) = _
      rw [hens]
      rfl
    · intro _
      change b'.bits_left - n < 32
      omega
  · obtain rfl : n = 0 := by omega
    exact ⟨b, rfl, h, id⟩

/-- Between two reads: less than two words are in the buffer. -/
def Stands (data : List Byte) (start p : Nat) (b : BitBuffer) : Prop :=
  At data start p b ∧ b.bits_left < 32

theorem stands_new (h : start ≤ data.length) :
    Stands data start 0 (BitBuffer.new ⟨data, start⟩) :=
  ⟨at_new h, (by decide : (0 : Int) < 32)⟩

def Reads {α : Type} (f : Bits α) (w : List Bool) (a : α) : Prop :=
  ∀ data start p b, Stands data start p b → Spells (wordBits data start) p w →
    ∃ b', f b = some (a, b') ∧ Stands data start (p + w.length) b'

section
variable {α β : Type}

theorem Reads.pure (a : α) : Reads (pure a) [] a := by
  intro data start p b h _
  exact ⟨b, rfl, h⟩

theorem Reads.bind {f : Bits α} {g : α → Bits β} {u w : List Bool} {a : α} {c : β}
    (hf : Reads f u a) (hg : Reads (g a) w c) : Reads (f >>= g) (u ++ w) c := by
  intro data start p b h hw
  obtain ⟨hu, hw'⟩ := spells_append.mp hw
  obtain ⟨b', hb', hat⟩ := hf data start p b h hu
  obtain ⟨b'', hb'', hat'⟩ := hg data start (p + u.length) b' hat hw'
  refine ⟨b'', ?_, ?_⟩
  · change (f b >>= fun r => g r.1 r.2) = _
    rw [hb']
    exact hb''
  · rwa [List.length_append, ← Nat.add_assoc]

theorem Reads.bind_pure {f : Bits α} {w : List Bool} {a : α} (hf : Reads f w a) (g : α → β) :
    Reads (do let r ← f; Pure.pure (g r)) w (g a) := by
  have h := Reads.bind (g := fun r => Pure.pure (g r)) hf (Reads.pure (g a))
  rwa [List.append_nil] at h

end

theorem readBits_reads {n v : Nat} (hn : n ≤ 17) (hv : v < 2 ^ n) :
    Reads (readBits n) (bits n v) v := by
  intro data start p b h hw
  obtain ⟨b', hb', hat, hleft⟩ := readBits_at h.1 (by omega) (Or.inl hn)
  rw [valueAt_bits hw, Nat.mod_eq_of_lt hv] at hb'
  exact ⟨b', hb', by rwa [bits_length], hleft h.2⟩

end AipcOs.LzxBits
