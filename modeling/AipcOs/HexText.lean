import AipcOs.ByteMemory

/-! ASCII text and hexadecimal: digits of either case, bytes as two lower-case digits, and
numerals of any length. -/
namespace AipcOs.HexText
open ByteMemory

def ascii (s : String) : List Byte := s.toList.map fun c => BitVec.ofNat 8 c.toNat

theorem ascii_length (s : String) : (ascii s).length = s.length := by
  rw [ascii, List.length_map, String.length_toList]

/-- The length of a literal, without its bytes. -/
theorem ascii_ofList_length (l : List Char) : (ascii (String.ofList l)).length = l.length := by
  rw [ascii_length, String.length_ofList]

def digit (v : Nat) : Byte := BitVec.ofNat 8 (if v < 10 then 0x30 + v else 0x61 + v - 10)

def value? (c : Byte) : Option Nat :=
  if 0x30 ≤ c.toNat ∧ c.toNat ≤ 0x39 then some (c.toNat - 0x30)
  else if 0x61 ≤ c.toNat ∧ c.toNat ≤ 0x66 then some (c.toNat - 0x61 + 10)
  else if 0x41 ≤ c.toNat ∧ c.toNat ≤ 0x46 then some (c.toNat - 0x41 + 10)
  else none

theorem value?_digit (v : Nat) (hv : v < 16) : value? (digit v) = some v := by
  interval_cases v <;> rfl

theorem value?_lt {c : Byte} {v : Nat} (h : value? c = some v) : v < 16 := by
  unfold value? at h
  split at h
  · cases h
    omega
  · split at h
    · cases h
      omega
    · split at h
      · cases h
        omega
      · cases h

theorem digit_range (v : Nat) (hv : v < 16) :
    (digit v).toNat ≠ 0x23 ∧ (digit v).toNat ≠ 0x24 := by
  interval_cases v <;> decide

def byteText (b : Byte) : List Byte := [digit (b.toNat / 16), digit (b.toNat % 16)]

def encode (bs : List Byte) : List Byte := bs.flatMap byteText

@[simp] theorem byteText_length (b : Byte) : (byteText b).length = 2 := rfl

theorem encode_cons (b : Byte) (bs : List Byte) : encode (b :: bs) = byteText b ++ encode bs := rfl

theorem encode_append (xs ys : List Byte) : encode (xs ++ ys) = encode xs ++ encode ys := by
  simp [encode]

theorem encode_length (bs : List Byte) : (encode bs).length = 2 * bs.length := by
  induction bs with
  | nil => rfl
  | cons b bs ih =>
    rw [encode_cons, List.length_append, ih, byteText_length, List.length_cons]
    omega

/-- Two digits at a time; anything else ends the text. -/
def decode : List Byte → Option (List Byte)
  | [] => some []
  | [_] => none
  | h :: l :: rest =>
    match value? h, value? l, decode rest with
    | some x, some y, some bs => some (BitVec.ofNat 8 (16 * x + y) :: bs)
    | _, _, _ => none

theorem byte_halves (b : Byte) : BitVec.ofNat 8 (16 * (b.toNat / 16) + b.toNat % 16) = b := by
  rw [Nat.div_add_mod]
  simp

theorem decode_encode (bs : List Byte) : decode (encode bs) = some bs := by
  induction bs with
  | nil => rfl
  | cons b bs ih =>
    have hb := b.isLt
    rw [encode_cons, byteText, List.cons_append, List.cons_append, List.nil_append, decode,
      value?_digit _ (by omega), value?_digit _ (by omega), ih]
    simp only [byte_halves]

theorem mem_byteText {c b : Byte} (h : c ∈ byteText b) : c.toNat ≠ 0x23 ∧ c.toNat ≠ 0x24 := by
  have hb := b.isLt
  simp only [byteText, List.mem_cons, List.not_mem_nil, or_false] at h
  obtain rfl | rfl := h
  · exact digit_range _ (by omega)
  · exact digit_range _ (by omega)

theorem mem_encode {c : Byte} {bs : List Byte} (h : c ∈ encode bs) :
    c.toNat ≠ 0x23 ∧ c.toNat ≠ 0x24 := by
  obtain ⟨b, _, hc⟩ := List.mem_flatMap.mp h
  exact mem_byteText hc

def Digits (ds : List Byte) : Prop := ∀ c ∈ ds, (value? c).isSome

instance (ds : List Byte) : Decidable (Digits ds) := by unfold Digits; infer_instance

def numeralFrom (acc : Nat) : List Byte → Nat
  | [] => acc
  | c :: cs => numeralFrom (16 * acc + (value? c).getD 0) cs

def numeral (ds : List Byte) : Nat := numeralFrom 0 ds

theorem Digits.head {c : Byte} {ds : List Byte} (h : Digits (c :: ds)) : ∃ v, value? c = some v :=
  Option.isSome_iff_exists.mp (h c List.mem_cons_self)

theorem Digits.tail {c : Byte} {ds : List Byte} (h : Digits (c :: ds)) : Digits ds :=
  fun x hx => h x (List.mem_cons_of_mem c hx)

end AipcOs.HexText
