import AipcOs.IniGrammar

/-! lv_strlcpy and lv_snprintf of LVGL, which the boot menu calls: what they leave in a destination
of `size` bytes, by their documentation. -/
namespace AipcOs.LvglText
open ByteMemory HexText Ini

/-- A part of a format string: text as it is, `%s`, `%u` or `%d` with its argument. -/
inductive Piece where
  | text (s : List Byte)
  | string (s : List Byte)
  | unsigned (v : Word)
  | signed (v : Int)

def decimal (n : Nat) : List Byte := (Nat.toDigits 10 n).map chr

def Piece.shown : Piece → List Byte
  | text s => s
  | string s => s
  | unsigned v => decimal v.toNat
  | signed v => if v < 0 then chr '-' :: decimal v.natAbs else decimal v.natAbs

def shown (format : List Piece) : List Byte := format.flatMap Piece.shown

/-- The strings that the two functions leave, and the length that lv_snprintf returns: what it would
have left with enough room. -/
class Lvgl where
  lvStrlcpy (size : Nat) (src : List Byte) : List Byte
  lvSnprintf (size : Nat) (format : List Piece) : List Byte × Nat
  strlcpy_cuts {size : Nat} (src : List Byte) : 0 < size → lvStrlcpy size src = src.take (size - 1)
  snprintf_cuts {size : Nat} (format : List Piece) :
    0 < size → (lvSnprintf size format).1 = (shown format).take (size - 1)
  snprintf_counts (size : Nat) (format : List Piece) :
    (lvSnprintf size format).2 = (shown format).length

export Lvgl (lvStrlcpy lvSnprintf)

section
variable [Lvgl] {size : Nat}

theorem lvStrlcpy_isPrefix (hsize : 0 < size) (s : List Byte) : lvStrlcpy size s <+: s := by
  rw [Lvgl.strlcpy_cuts s hsize]
  exact List.take_prefix _ _

theorem lvStrlcpy_length (hsize : 0 < size) (s : List Byte) :
    (lvStrlcpy size s).length ≤ size - 1 := by
  rw [Lvgl.strlcpy_cuts s hsize]
  exact List.length_take_le _ _

theorem lvStrlcpy_fits {s : List Byte} (h : s.length < size) : lvStrlcpy size s = s := by
  rw [Lvgl.strlcpy_cuts s (by omega), List.take_of_length_le (by omega)]

/-- A string that is shorter than the room it had is a whole copy. -/
theorem eq_of_lvStrlcpy {s w : List Byte} (h : lvStrlcpy size s = w) (hw : w.length + 1 < size) :
    s = w := by
  rw [Lvgl.strlcpy_cuts s (by omega)] at h
  have hlen := congrArg List.length h
  rw [List.length_take] at hlen
  rw [← h, List.take_of_length_le (by omega)]

theorem lvStrlcpy_eq_nil (hsize : 1 < size) (s : List Byte) : lvStrlcpy size s = [] ↔ s = [] := by
  rw [Lvgl.strlcpy_cuts s (by omega), List.take_eq_nil_iff]
  constructor
  · intro h
    exact h.resolve_left (by omega)
  · exact Or.inr

theorem lvSnprintf_isPrefix (hsize : 0 < size) (format : List Piece) :
    (lvSnprintf size format).1 <+: shown format := by
  rw [Lvgl.snprintf_cuts format hsize]
  exact List.take_prefix _ _

theorem lvSnprintf_length (hsize : 0 < size) (format : List Piece) :
    (lvSnprintf size format).1.length ≤ size - 1 := by
  rw [Lvgl.snprintf_cuts format hsize]
  exact List.length_take_le _ _

theorem lvSnprintf_fits {format : List Piece} (h : (shown format).length < size) :
    (lvSnprintf size format).1 = shown format := by
  rw [Lvgl.snprintf_cuts format (by omega), List.take_of_length_le (by omega)]

end

namespace Builtin

scoped instance builtin : Lvgl where
  lvStrlcpy size src := src.take (size - 1)
  lvSnprintf size format := ((shown format).take (size - 1), (shown format).length)
  strlcpy_cuts _ _ := rfl
  snprintf_cuts _ _ := rfl
  snprintf_counts _ _ := rfl

end Builtin

end AipcOs.LvglText
