import AipcOs.ByteMemory

/-! Fixed-width little-endian fields in byte strings: reading a field, storing one, and which
reads a store leaves alone. -/
namespace AipcOs.StructBytes
open ByteMemory

/-- The number with these little-endian digits. -/
def le (bs : List Byte) : Nat := Nat.ofDigits 256 (bs.map BitVec.toNat)

/-- The `n` low bytes of a number, lowest first. -/
def pack : Nat → Nat → List Byte
  | 0, _ => []
  | n + 1, v => BitVec.ofNat 8 v :: pack n (v / 256)

def slice (b : List Byte) (off n : Nat) : List Byte := (b.drop off).take n

def u16 (b : List Byte) (off : Nat) : Nat := le (slice b off 2)

def u32 (b : List Byte) (off : Nat) : Nat := le (slice b off 4)

def patch (b : List Byte) (off : Nat) (bs : List Byte) : List Byte :=
  b.take off ++ bs ++ b.drop (off + bs.length)

def Apart (r s : Nat × Nat) : Prop := r.1 + r.2 ≤ s.1 ∨ s.1 + s.2 ≤ r.1

instance : DecidableRel Apart := fun r s =>
  inferInstanceAs (Decidable (r.1 + r.2 ≤ s.1 ∨ s.1 + s.2 ≤ r.1))

def findFrom (needle : List Byte) (i : Nat) : List Byte → Option Nat
  | [] => if needle = [] then some i else none
  | b :: bs => if needle.isPrefixOf (b :: bs) then some i else findFrom needle (i + 1) bs

def find (b needle : List Byte) : Option Nat := findFrom needle 0 b

theorem le_lt (bs : List Byte) : le bs < 256 ^ bs.length := by
  have h := Nat.ofDigits_lt_base_pow_length' (b := 254) (l := bs.map BitVec.toNat) (by
    intro x hx
    obtain ⟨y, -, rfl⟩ := List.mem_map.mp hx
    exact y.isLt)
  rwa [List.length_map] at h

theorem pack_length (n v : Nat) : (pack n v).length = n := by
  induction n generalizing v with
  | zero => rfl
  | succ n ih => rw [pack, List.length_cons, ih]

theorem le_pack (n v : Nat) : le (pack n v) = v % 256 ^ n := by
  induction n generalizing v with
  | zero => simp [pack, le, Nat.mod_one]
  | succ n ih =>
    have hrec : le (pack (n + 1) v) = v % 256 + 256 * le (pack n (v / 256)) := by
      simp [le, pack, Nat.ofDigits_cons]
    rw [hrec, ih, Nat.pow_succ', Nat.mod_mul]

theorem slice_length {b : List Byte} {off n : Nat} (h : off + n ≤ b.length) :
    (slice b off n).length = n := by
  rw [slice, List.length_take, List.length_drop]
  omega

theorem slice_getElem? (b : List Byte) (off n i : Nat) :
    (slice b off n)[i]? = if i < n then b[off + i]? else none := by
  rw [slice, List.getElem?_take, List.getElem?_drop]

theorem patch_length {b bs : List Byte} {off : Nat} (h : off + bs.length ≤ b.length) :
    (patch b off bs).length = b.length := by
  simp only [patch, List.length_append, List.length_take, List.length_drop]
  omega

theorem patch_getElem? {b bs : List Byte} {off : Nat} (h : off + bs.length ≤ b.length) (i : Nat) :
    (patch b off bs)[i]? =
      if off ≤ i ∧ i < off + bs.length then bs[i - off]? else b[i]? := by
  have htake : (b.take off).length = off := by
    rw [List.length_take]
    omega
  rw [patch, List.append_assoc]
  by_cases hlo : i < off
  · rw [List.getElem?_append_left (by omega), List.getElem?_take_of_lt hlo, if_neg (by omega)]
  · rw [List.getElem?_append_right (by omega), htake]
    by_cases hhi : i < off + bs.length
    · rw [List.getElem?_append_left (by omega), if_pos (by omega)]
    · rw [List.getElem?_append_right (by omega), List.getElem?_drop, if_neg (by omega)]
      congr 1
      omega

theorem slice_patch_self {b bs : List Byte} {off : Nat} (h : off + bs.length ≤ b.length) :
    slice (patch b off bs) off bs.length = bs := by
  apply List.ext_getElem?
  intro i
  rw [slice_getElem?, patch_getElem? h]
  by_cases hi : i < bs.length
  · rw [if_pos hi, if_pos (by omega), Nat.add_sub_cancel_left]
  · rw [if_neg hi, List.getElem?_eq_none (by omega)]

/-- A store leaves every field beside it. -/
theorem slice_patch_of_disjoint {b bs : List Byte} {off : Nat} (h : off + bs.length ≤ b.length)
    {o n : Nat} (hd : o + n ≤ off ∨ off + bs.length ≤ o) :
    slice (patch b off bs) o n = slice b o n := by
  apply List.ext_getElem?
  intro i
  rw [slice_getElem?, slice_getElem?, patch_getElem? h]
  by_cases hi : i < n
  · rw [if_pos hi, if_pos hi, if_neg (by omega)]
  · rw [if_neg hi, if_neg hi]

theorem slice_drop (b : List Byte) (off o n : Nat) :
    slice (b.drop off) o n = slice b (off + o) n := by
  rw [slice, slice, List.drop_drop]

theorem u32_drop (b : List Byte) (off o : Nat) : u32 (b.drop off) o = u32 b (off + o) := by
  rw [u32, u32, slice_drop]

theorem u16_drop (b : List Byte) (off o : Nat) : u16 (b.drop off) o = u16 b (off + o) := by
  rw [u16, u16, slice_drop]

/-- Equal windows have equal windows inside them. -/
theorem slice_sub {b b' : List Byte} {o n k m : Nat} (h : slice b' o n = slice b o n)
    (hk : k + m ≤ n) : slice b' (o + k) m = slice b (o + k) m := by
  apply List.ext_getElem?
  intro i
  rw [slice_getElem?, slice_getElem?]
  by_cases hi : i < m
  · have hbyte := congrArg (fun l : List Byte => l[k + i]?) h
    simp only [slice_getElem?] at hbyte
    rw [if_pos (by omega), if_pos (by omega), ← Nat.add_assoc] at hbyte
    rw [if_pos hi, if_pos hi, hbyte]
  · rw [if_neg hi, if_neg hi]

theorem slice_fits {b s : List Byte} {off n : Nat} (h : slice b off n = s) (hs : s.length = n)
    (hn : n ≠ 0) : off + n ≤ b.length := by
  have hlen := congrArg List.length h
  rw [slice, List.length_take, List.length_drop, hs] at hlen
  omega

theorem slice_append (b : List Byte) (off n k : Nat) :
    slice b off n ++ slice b (off + n) k = slice b off (n + k) := by
  rw [slice, slice, slice, List.take_add, List.drop_drop]

theorem slice_take {n k : Nat} (b : List Byte) (off : Nat) (h : k ≤ n) :
    (slice b off n).take k = slice b off k := by
  rw [slice, slice, List.take_take, Nat.min_eq_left h]

theorem slice_slice {n k m : Nat} (b : List Byte) (off : Nat) (h : k + m ≤ n) :
    slice (slice b off n) k m = slice b (off + k) m := by
  rw [slice, slice, slice, List.drop_take, List.drop_drop, List.take_take,
    Nat.min_eq_left (by omega)]

end AipcOs.StructBytes
