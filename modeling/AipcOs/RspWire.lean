import AipcOs.HexText

/-! The remote serial protocol on the wire: packets with their checksum, and the escaping of
binary data. -/
namespace AipcOs.RspWire
open ByteMemory HexText

def byteTotal (bs : List Byte) : Nat := (bs.map BitVec.toNat).sum

def checksum (bs : List Byte) : Byte := BitVec.ofNat 8 (byteTotal bs)

/-- `$body#xy`. -/
def packet (body : List Byte) : List Byte := 0x24 :: body ++ 0x23 :: byteText (checksum body)

def Plain (body : List Byte) : Prop := ∀ c ∈ body, c.toNat ≠ 0x23 ∧ c.toNat ≠ 0x24

theorem plain_nil : Plain [] := by simp [Plain]

theorem Plain.cons {c : Byte} {bs : List Byte} (hc : c.toNat ≠ 0x23 ∧ c.toNat ≠ 0x24)
    (h : Plain bs) : Plain (c :: bs) := by
  intro x hx
  obtain rfl | hx := List.mem_cons.mp hx
  · exact hc
  · exact h x hx

theorem Plain.append {xs ys : List Byte} (hx : Plain xs) (hy : Plain ys) : Plain (xs ++ ys) := by
  intro c hc
  obtain hc | hc := List.mem_append.mp hc
  · exact hx c hc
  · exact hy c hc

theorem plain_encode (bs : List Byte) : Plain (encode bs) := fun _ hc => mem_encode hc

/-- `Escapes d t`: the text `t` spells the data `d`. Any byte may be escaped; '#', '$' and '}'
must be. -/
inductive Escapes : List Byte → List Byte → Prop
  | nil : Escapes [] []
  | plain (b : Byte) (d t : List Byte) :
      b ≠ 0x23 → b ≠ 0x24 → b ≠ 0x7D → Escapes d t → Escapes (b :: d) (b :: t)
  | escaped (b : Byte) (d t : List Byte) : Escapes d t → Escapes (b :: d) (0x7D :: (b ^^^ 0x20) :: t)

theorem Escapes.length_le {d t : List Byte} (h : Escapes d t) : d.length ≤ t.length := by
  induction h with
  | nil => rfl
  | plain b d t h1 h2 h3 h ih => simpa using ih
  | escaped b d t h ih =>
    simp only [List.length_cons]
    omega

end AipcOs.RspWire
