import AipcOs.LzxDecoder

/-! LZX data of one block, as it is written, and what it stands for. -/
namespace AipcOs.LzxFormat
open ByteMemory StructBytes MsbBits LzxBits LzxTable LzxLengths LzxBlock LzxTokens LzxCalls

def word16 (w : List Bool) : Nat := value ((w ++ List.replicate 16 false).take 16)

def packWords : (n : Nat) → List Bool → List Byte
  | 0, _ => []
  | n + 1, w => pack 2 (word16 w) ++ packWords n (w.drop 16)

def packBits (w : List Bool) : List Byte := packWords ((w.length + 15) / 16) w

/-- The trees of a block; `align` is there in an aligned block. -/
structure Trees where
  align : Option (List Nat)
  low : Sent
  high : Sent
  len : Sent

namespace Trees

def word (t : Trees) : List Bool :=
  (t.align.getD []).flatMap (bits 3) ++ (t.low.word ++ (t.high.word ++ t.len.word))

def code (t : Trees) : Code where
  main := LengthOp.run t.high.ops 256 (LengthOp.run t.low.ops 0 (zeroLen 664))
  len := LengthOp.run t.len.ops 0 (zeroLen 249)
  align := splice (zeroLen 8) 0 (t.align.getD [])
  aligned := t.align.isSome

structure Valid (t : Trees) (elements : Nat) : Prop where
  low : t.low.Valid 0 256
  high : t.high.Valid 256 elements
  len : t.len.Valid 0 249
  main_usable : Usable 664 11 t.code.main
  len_usable : Usable 249 10 t.code.len
  align : ∀ al, t.align = some al → al.length = 8 ∧ (∀ l ∈ al, l < 8) ∧ Usable 8 7 t.code.align

end Trees

inductive Body where
  | coded (t : Trees) (tokens : List Token)
  | raw (r : Recent) (bytes : List Byte)

def fresh : Recent := ⟨1, 1, 1⟩

namespace Body

def content : Body → List Byte
  | coded _ tokens => (expand tokens ([], fresh)).1
  | raw _ bytes => bytes

def block_type : Body → Nat
  | coded t _ => if t.align.isSome then BLOCKTYPE_ALIGNED else BLOCKTYPE_VERBATIM
  | raw _ _ => BLOCKTYPE_UNCOMPRESSED

def Valid (w : Nat) : Body → Prop
  | coded t tokens =>
    t.Valid (NUM_CHARS + 8 * position_slots.getD (w - 15) 0) ∧
      ∀ x ∈ tokens, x.Valid t.code (2 ^ w)
  | raw r _ => r.R0 < 2 ^ 32 ∧ r.R1 < 2 ^ 32 ∧ r.R2 < 2 ^ 32

end Body

def intelWord : Option Nat → List Bool
  | none => bits 1 0
  | some filesize => bits 1 1 ++ (bits 16 (filesize / 2 ^ 16) ++ bits 16 (filesize % 2 ^ 16))

def headWord (intel : Option Nat) (block_type n : Nat) : List Bool :=
  intelWord intel ++ (bits 3 block_type ++ bits 24 n)

def codedWord (intel : Option Nat) (t : Trees) (tokens : List Token) : List Bool :=
  headWord intel (Body.coded t tokens).block_type (Body.coded t tokens).content.length ++
    (t.word ++ tokens.flatMap (Token.word t.code))

def encode (intel : Option Nat) : Body → List Byte
  | .coded t tokens => packBits (codedWord intel t tokens)
  | .raw r bytes =>
    packBits (headWord intel BLOCKTYPE_UNCOMPRESSED bytes.length) ++
      (pack 4 r.R0 ++ (pack 4 r.R1 ++ (pack 4 r.R2 ++ bytes)))

section words

variable {w : List Bool} {n : Nat}

theorem packWords_length (n : Nat) (w : List Bool) : (packWords n w).length = 2 * n := by
  induction n generalizing w with
  | zero => rfl
  | succ n ih =>
    rw [packWords, List.length_append, pack_length, ih]
    omega

theorem byteAt_append_right (pre suf : List Byte) (i : Nat) :
    byteAt (pre ++ suf) (pre.length + i) = byteAt suf i := by
  rw [byteAt, byteAt, List.getD_append_right _ _ _ _ (Nat.le_add_right _ _),
    Nat.add_sub_cancel_left]

/-- The two bytes of word `k`. -/
theorem packWords_byteAt {k : Nat} (h : k < n) (suf : List Byte) :
    byteAt (packWords n w ++ suf) (2 * k + 1) ++ byteAt (packWords n w ++ suf) (2 * k) =
      BitVec.ofNat 8 (word16 (w.drop (16 * k)) / 256) ++
        BitVec.ofNat 8 (word16 (w.drop (16 * k))) := by
  induction n generalizing w k with
  | zero => exact absurd h (Nat.not_lt_zero k)
  | succ n ih =>
    rw [packWords, List.append_assoc]
    cases k with
    | zero => rfl
    | succ k =>
      have hlen := pack_length 2 (word16 w)
      have h1 : 2 * (k + 1) + 1 = (pack 2 (word16 w)).length + (2 * k + 1) := by omega
      have h2 : 2 * (k + 1) = (pack 2 (word16 w)).length + 2 * k := by omega
      have hdrop : (w.drop 16).drop (16 * k) = w.drop (16 * (k + 1)) := by
        rw [List.drop_drop]
        congr 1
        omega
      have hrec := ih (w := w.drop 16) (k := k) (by omega)
      rw [hdrop] at hrec
      rw [h1, byteAt_append_right, h2, byteAt_append_right, hrec]

theorem bytes_getMsbD {v j : Nat} (hj : j < 16) :
    (BitVec.ofNat 8 (v / 256) ++ BitVec.ofNat 8 v).getMsbD j = v.testBit (15 - j) := by
  rw [BitVec.getMsbD_eq_getLsbD, decide_eq_true hj, Bool.true_and, BitVec.getLsbD_append]
  by_cases h : 8 + 8 - 1 - j < 8
  · rw [if_pos h, BitVec.getLsbD_ofNat, decide_eq_true h, Bool.true_and]
  · have h256 : (256 : Nat) = 2 ^ 8 := rfl
    rw [if_neg h, BitVec.getLsbD_ofNat, decide_eq_true (by omega), Bool.true_and, h256,
      Nat.testBit_div_two_pow]
    congr 1
    omega

theorem word16_testBit {j : Nat} (hj : j < 16) (hw : j < w.length) :
    (word16 w).testBit (15 - j) = w[j] := by
  have hlen : ((w ++ List.replicate 16 false).take 16).length = 16 := by
    rw [List.length_take, List.length_append, List.length_replicate]
    omega
  have hbits := bits_value ((w ++ List.replicate 16 false).take 16)
  rw [hlen] at hbits
  have hget := bits_getElem 16 (word16 w) j (by rwa [bits_length])
  have heq : bits 16 (word16 w) = (w ++ List.replicate 16 false).take 16 := hbits
  simp only [heq, List.getElem_take] at hget
  rw [List.getElem_append_left hw] at hget
  exact hget.symm

theorem wordBits_packWords (pre suf : List Byte) {i : Nat} (hn : i < 16 * n) (hi : i < w.length) :
    (wordBits (pre ++ (packWords n w ++ suf)) pre.length).get i = w[i] := by
  change (byteAt _ (pre.length + 2 * (i / 16) + 1) ++
    byteAt _ (pre.length + 2 * (i / 16))).getMsbD (i % 16) = _
  have hmod : i % 16 < 16 := Nat.mod_lt _ (by decide)
  have hdrop : i % 16 < (w.drop (16 * (i / 16))).length := by
    rw [List.length_drop]
    omega
  rw [Nat.add_assoc, byteAt_append_right, byteAt_append_right, packWords_byteAt (by omega),
    bytes_getMsbD hmod, word16_testBit hmod hdrop, List.getElem_drop]
  congr 1
  omega

/-- The bits of packed words are read where the words stand. -/
theorem spells_packBits (pre suf : List Byte) (w : List Bool) :
    Spells (wordBits (pre ++ (packBits w ++ suf)) pre.length) 0 w := by
  rw [spells_iff]
  intro i hi
  rw [Nat.zero_add, packBits, wordBits_packWords pre suf (by omega) hi]

theorem packBits_length (w : List Bool) : (packBits w).length = 2 * ((w.length + 15) / 16) :=
  packWords_length _ _

end words

end AipcOs.LzxFormat
