import AipcOs.WordBits

/-! lib/ecc.c: the error position registers of the ECC engine. `data` and `tag` are the memory from
the two pointers on. -/
namespace AipcOs.Ecc
open ByteMemory WordBits

def segBase (pair : Nat) : Int := [-112, 16, 144, 272, 400].getD pair 0

def selector (reg : Word) : Word := (reg >>> 9) &&& (0x3FF : Word)

def position (reg : Word) : Nat := (reg &&& (0x1FF : Word)).toNat

def lowBit (sel : Word) : Nat := ((List.range 32).find? fun i => sel &&& ((1 : Word) <<< i) ≠ 0).getD 32

/-- ecc_locate from segment `i` on. The shift and the complement of `r` act on a number that is not
negative any more. -/
def locateIn (i pos : Nat) : Option (Nat × Byte) :=
  let base := segBase (i / 2)
  let parity := (0x2AA >>> i) &&& 1
  let r := 2 * (pos : Int) + (parity : Nat) - 4
  let (r, base) := if r < 0 then (r + 8, base - 1) else (r, base)
  let idx := base + r / 8
  if idx < 0 then none else some (idx.toNat, (1 : Byte) <<< ((-r - 1) % 8).toNat)

def eccLocate (reg : Word) : Option (Nat × Byte) :=
  let sel := selector reg
  if sel = 0 ∨ sel &&& (sel - 1) ≠ 0 then none else locateIn (lowBit sel) (position reg)

structure Applied where
  rc : Int
  data : Nat → Byte
  tag : Nat → Byte

def toggle (m : Nat → Byte) (i : Nat) (mask : Byte) : Nat → Byte := Function.update m i (m i ^^^ mask)

def applyFrom (tagLen applied : Nat) (data tag : Nat → Byte) : List Word → Applied
  | [] => ⟨if applied ≠ 0 then 0 else -1, data, tag⟩
  | reg :: regs =>
    if reg = 0 then applyFrom tagLen applied data tag regs
    else
      match eccLocate reg with
      | none => ⟨-1, data, tag⟩
      | some (byte, mask) =>
        if byte < 512 then applyFrom tagLen (applied + 1) (toggle data byte mask) tag regs
        else if byte - 512 < tagLen then
          applyFrom tagLen (applied + 1) data (toggle tag (byte - 512) mask) regs
        else ⟨-1, data, tag⟩

def eccApply (regs : List Word) (data tag : Nat → Byte) (tagLen : Nat) : Applied :=
  applyFrom tagLen 0 data tag regs

/-- The closed form: a one-hot selector for a pair and a parity, and a 9-bit position. -/
def register (pair parity pos : Nat) : Word :=
  ((1 : Word) <<< (2 * pair + parity) <<< 9) ||| BitVec.ofNat 32 pos

/-- The bit that a register stands for, counted from the most significant bit of byte 0. -/
def bitOffset (pair parity pos : Nat) : Int := 8 * segBase pair + 2 * pos + parity - 4

def Encodes (reg : Word) (off : Nat) : Prop :=
  ∃ pair < 5, ∃ parity < 2, ∃ pos < 512,
    reg = register pair parity pos ∧ (off : Int) = bitOffset pair parity pos

def bitAt (data tag : Nat → Byte) (off : Nat) : Bool :=
  if off < 4096 then (data (off / 8)).getMsbD (off % 8)
  else (tag (off / 8 - 512)).getMsbD (off % 8)

def OneHot (reg : Word) (i : Nat) : Prop := i < 10 ∧ selector reg = (1 : Word) <<< i

def Bad (tagLen : Nat) (reg : Word) : Prop :=
  ∀ i, OneHot reg i →
    bitOffset (i / 2) (i % 2) (position reg) < 0 ∨
      8 * (512 + tagLen : Int) ≤ bitOffset (i / 2) (i % 2) (position reg)

theorem one_hot_table : ∀ n : Fin 1024,
    let sel := BitVec.ofNat 32 n
    ((sel = 0 ∨ sel &&& (sel - 1) ≠ 0) ∧ ∀ i < 10, sel ≠ (1 : Word) <<< i) ∨
      (¬ (sel = 0 ∨ sel &&& (sel - 1) ≠ 0) ∧ ∃ i < 10, sel = (1 : Word) <<< i ∧ lowBit sel = i) := by
  decide +kernel

theorem one_hot_inj : ∀ i < 10, ∀ j < 10, (1 : Word) <<< i = (1 : Word) <<< j → i = j := by
  decide

theorem parity_table : ∀ i < 10, (0x2AA >>> i) &&& 1 = i % 2 := by
  decide

/-- The selector, one-hot or rejected. -/
theorem selector_cases (reg : Word) :
    ((selector reg = 0 ∨ selector reg &&& (selector reg - 1) ≠ 0) ∧ ∀ i, ¬ OneHot reg i) ∨
    (¬ (selector reg = 0 ∨ selector reg &&& (selector reg - 1) ≠ 0) ∧
      ∃ i, OneHot reg i ∧ lowBit (selector reg) = i) := by
  have hlt : (selector reg).toNat < 1024 := by
    rw [selector, BitVec.toNat_and]
    exact Nat.and_lt_two_pow (n := 10) _ (by decide)
  have htable := one_hot_table ⟨_, hlt⟩
  simp only [BitVec.ofNat_toNat, BitVec.setWidth_eq] at htable
  unfold OneHot
  obtain ⟨hbad, hnone⟩ | ⟨hgood, i, hi, hsel, hlow⟩ := htable
  · exact .inl ⟨hbad, fun i hi => hnone i hi.1 hi.2⟩
  · exact .inr ⟨hgood, i, ⟨hi, hsel⟩, hlow⟩

theorem eccLocate_none {reg : Word} (h : ∀ i, ¬ OneHot reg i) : eccLocate reg = none := by
  obtain ⟨hbad, -⟩ | ⟨-, i, hi, -⟩ := selector_cases reg
  · unfold eccLocate
    simp only
    rw [if_pos hbad]
  · exact absurd hi (h i)

/-- The byte and mask of a segment and position, from the bit. -/
theorem locateIn_eq {i pos : Nat} (hi : i < 10) :
    locateIn i pos =
      if bitOffset (i / 2) (i % 2) pos < 0 then none
      else
        some ((bitOffset (i / 2) (i % 2) pos / 8).toNat,
          (1 : Byte) <<< (7 - (bitOffset (i / 2) (i % 2) pos % 8).toNat)) := by
  have hp : i % 2 < 2 := Nat.mod_lt _ (by decide)
  unfold locateIn bitOffset
  simp only [parity_table i hi]
  generalize segBase (i / 2) = base
  generalize i % 2 = parity at hp
  by_cases hr : 2 * (pos : Int) + (parity : Int) - 4 < 0
  · simp only [if_pos hr]
    have hbyte : base - 1 + (2 * (pos : Int) + parity - 4 + 8) / 8 =
        (8 * base + 2 * pos + parity - 4) / 8 := by omega
    have hmask : ((-(2 * (pos : Int) + parity - 4 + 8) - 1) % 8).toNat =
        7 - ((8 * base + 2 * pos + parity - 4) % 8).toNat := by omega
    have hneg : (8 * base + 2 * pos + parity - 4) / 8 < 0 ↔
        8 * base + 2 * pos + parity - 4 < 0 := by omega
    rw [hbyte, hmask]
    simp only [hneg]
  · simp only [if_neg hr]
    have hbyte : base + (2 * (pos : Int) + parity - 4) / 8 =
        (8 * base + 2 * pos + parity - 4) / 8 := by omega
    have hmask : ((-(2 * (pos : Int) + parity - 4) - 1) % 8).toNat =
        7 - ((8 * base + 2 * pos + parity - 4) % 8).toNat := by omega
    have hneg : (8 * base + 2 * pos + parity - 4) / 8 < 0 ↔
        8 * base + 2 * pos + parity - 4 < 0 := by omega
    rw [hbyte, hmask]
    simp only [hneg]

theorem eccLocate_oneHot {reg : Word} {i : Nat} (h : OneHot reg i) :
    eccLocate reg = locateIn i (position reg) := by
  obtain ⟨-, hnone⟩ | ⟨hgood, j, hj, hlow⟩ := selector_cases reg
  · exact absurd h (hnone i)
  · obtain rfl : i = j := one_hot_inj i h.1 j hj.1 (h.2.symm.trans hj.2)
    unfold eccLocate
    simp only
    rw [if_neg hgood, hlow]

/-- The two fields of a register. -/
theorem register_fields {i pos : Nat} (hi : i < 10) (hpos : pos < 512) :
    selector (((1 : Word) <<< i <<< 9) ||| BitVec.ofNat 32 pos) = (1 : Word) <<< i ∧
      position (((1 : Word) <<< i <<< 9) ||| BitVec.ofNat 32 pos) = pos := by
  have hsmall : ((1 : Word) <<< i).toNat < 1024 := by
    interval_cases i <;> decide
  have hlow : (BitVec.ofNat 32 pos).toNat = pos := by
    rw [BitVec.toNat_ofNat]
    exact Nat.mod_eq_of_lt (by omega)
  have hlt : (BitVec.ofNat 32 pos).toNat < 2 ^ 9 := by
    rw [hlow]
    exact hpos
  have hfits : ((1 : Word) <<< i).toNat * 2 ^ 9 < 2 ^ 32 := by omega
  have hword := shift_or_toNat hlt hfits
  rw [hlow] at hword
  constructor
  · apply BitVec.eq_of_toNat_eq
    rw [selector, BitVec.toNat_and, BitVec.toNat_ushiftRight, Nat.shiftRight_eq_div_pow, hword]
    have hmask := Nat.and_two_pow_sub_one_eq_mod
      ((((1 : Word) <<< i).toNat * 2 ^ 9 + pos) / 2 ^ 9) 10
    refine hmask.trans ?_
    omega
  · rw [position, BitVec.toNat_and, hword]
    have hmask := Nat.and_two_pow_sub_one_eq_mod (((1 : Word) <<< i).toNat * 2 ^ 9 + pos) 9
    refine hmask.trans ?_
    omega

theorem Encodes.locate {reg : Word} {off : Nat} (h : Encodes reg off) :
    reg ≠ 0 ∧ eccLocate reg = some (off / 8, (1 : Byte) <<< (7 - off % 8)) := by
  obtain ⟨pair, hpair, parity, hparity, pos, hpos, rfl, hoff⟩ := h
  have hi : 2 * pair + parity < 10 := by omega
  obtain ⟨hsel, hposition⟩ := register_fields hi hpos
  have hone : OneHot (register pair parity pos) (2 * pair + parity) := ⟨hi, hsel⟩
  have hposition : position (register pair parity pos) = pos := hposition
  have hdiv : (2 * pair + parity) / 2 = pair := by omega
  have hmod : (2 * pair + parity) % 2 = parity := by omega
  constructor
  · intro hzero
    have hsel := hone.2
    rw [hzero] at hsel
    have hclear : selector 0 = (1 : Word) <<< (2 * pair + parity) → False := by
      generalize 2 * pair + parity = i at hi
      interval_cases i <;> decide
    exact hclear hsel
  · rw [eccLocate_oneHot hone, locateIn_eq hi, hposition, hdiv, hmod, ← hoff, if_neg (by omega)]
    have hbyte : ((off : Int) / 8).toNat = off / 8 := by omega
    have hbit : ((off : Int) % 8).toNat = off % 8 := by omega
    rw [hbyte, hbit]

theorem mask_bits : ∀ k < 8, ∀ j < 8, ((1 : Byte) <<< (7 - k)).getMsbD j = decide (j = k) := by
  decide

theorem toggle_getMsbD (m : Nat → Byte) (i j k n : Nat) (hk : k < 8) (hn : n < 8) :
    (toggle m i ((1 : Byte) <<< (7 - k)) j).getMsbD n =
      Bool.xor ((m j).getMsbD n) (decide (j = i ∧ n = k)) := by
  by_cases hj : j = i
  · subst hj
    rw [toggle, Function.update_self, BitVec.getMsbD_xor, mask_bits k hk n hn]
    simp
  · rw [toggle, Function.update_of_ne hj]
    simp [hj]

/-- Flipping a bit of the chunk. -/
theorem bitAt_data (data tag : Nat → Byte) {off : Nat} (hoff : off < 4096) (x : Nat) :
    bitAt (toggle data (off / 8) ((1 : Byte) <<< (7 - off % 8))) tag x =
      Bool.xor (bitAt data tag x) (decide (x = off)) := by
  have hsplit : (x / 8 = off / 8 ∧ x % 8 = off % 8) ↔ x = off := by omega
  unfold bitAt
  by_cases hx : x < 4096
  · rw [if_pos hx, if_pos hx, toggle_getMsbD _ _ _ _ _ (by omega) (by omega)]
    simp only [hsplit]
  · rw [if_neg hx, if_neg hx, decide_eq_false (by omega), Bool.xor_false]

/-- Flipping a bit of the tag. -/
theorem bitAt_tag (data tag : Nat → Byte) {off : Nat} (hoff : 4096 ≤ off) (x : Nat) :
    bitAt data (toggle tag (off / 8 - 512) ((1 : Byte) <<< (7 - off % 8))) x =
      Bool.xor (bitAt data tag x) (decide (x = off)) := by
  unfold bitAt
  by_cases hx : x < 4096
  · rw [if_pos hx, if_pos hx, decide_eq_false (by omega), Bool.xor_false]
  · have hsplit : (x / 8 - 512 = off / 8 - 512 ∧ x % 8 = off % 8) ↔ x = off := by omega
    rw [if_neg hx, if_neg hx, toggle_getMsbD _ _ _ _ _ (by omega) (by omega)]
    simp only [hsplit]

def Reports (regs : List Word) (offs : List Nat) : Prop :=
  List.Forall₂ Encodes (regs.filter fun reg => reg ≠ 0) offs

/-- The loop undoes the errors that it has not met yet. -/
theorem applyFrom_restores {regs : List Word} {offs : List Nat} {applied : Nat}
    {data tag : Nat → Byte} {clean : Nat → Bool} (h : Reports regs offs) (hnd : offs.Nodup)
    (hin : ∀ off ∈ offs, off < 8 * 516) (hany : applied ≠ 0 ∨ offs ≠ [])
    (hbits : ∀ x < 8 * 516, bitAt data tag x = Bool.xor (clean x) (decide (x ∈ offs))) :
    (applyFrom 4 applied data tag regs).rc = 0 ∧
      ∀ x < 8 * 516, bitAt (applyFrom 4 applied data tag regs).data
        (applyFrom 4 applied data tag regs).tag x = clean x := by
  induction regs generalizing offs applied data tag with
  | nil =>
    rw [Reports, List.filter_nil, List.forall₂_nil_left_iff] at h
    subst h
    have happlied : applied ≠ 0 := hany.resolve_right (fun hne => hne rfl)
    rw [applyFrom, if_pos happlied]
    exact ⟨rfl, fun x hx => by simpa using hbits x hx⟩
  | cons reg regs ih =>
    rw [applyFrom]
    by_cases hzero : reg = 0
    · rw [if_pos hzero]
      rw [Reports, List.filter_cons_of_neg (by simp [hzero])] at h
      exact ih h hnd hin hany hbits
    · rw [Reports, List.filter_cons_of_pos (by exact decide_eq_true hzero)] at h
      cases h with
      | cons hreg hrest =>
        rename_i off offs
        obtain ⟨-, hlocate⟩ := hreg.locate
        rw [List.nodup_cons] at hnd
        have hoff := hin off List.mem_cons_self
        have hin' : ∀ off ∈ offs, off < 8 * 516 := fun x hx => hin x (List.mem_cons_of_mem _ hx)
        have hleft : ∀ x < 8 * 516, Bool.xor (bitAt data tag x) (decide (x = off)) =
            Bool.xor (clean x) (decide (x ∈ offs)) := by
          intro x hx
          rw [hbits x hx]
          by_cases hxo : x = off
          · subst hxo
            simp [hnd.1]
          · simp [hxo]
        rw [if_neg hzero]
        simp only [hlocate]
        by_cases hdata : off < 4096
        · rw [if_pos (by omega)]
          refine ih hrest hnd.2 hin' (.inl (Nat.succ_ne_zero _)) ?_
          intro x hx
          rw [bitAt_data _ _ hdata, hleft x hx]
        · rw [if_neg (by omega), if_pos (by omega)]
          refine ih hrest hnd.2 hin' (.inl (Nat.succ_ne_zero _)) ?_
          intro x hx
          rw [bitAt_tag _ _ (by omega), hleft x hx]

theorem bytes_of_bits {data tag data' tag' : Nat → Byte}
    (h : ∀ x < 8 * 516, bitAt data tag x = bitAt data' tag' x) :
    (∀ i < 512, data i = data' i) ∧ ∀ i < 4, tag i = tag' i := by
  constructor
  · intro i hi
    apply BitVec.eq_of_getMsbD_eq
    intro j hj
    have hbit := h (8 * i + j) (by omega)
    have hdata : 8 * i + j < 4096 := by omega
    have hbyte : (8 * i + j) / 8 = i := by omega
    have hcol : (8 * i + j) % 8 = j := by omega
    unfold bitAt at hbit
    rw [if_pos hdata, if_pos hdata, hbyte, hcol] at hbit
    exact hbit
  · intro i hi
    apply BitVec.eq_of_getMsbD_eq
    intro j hj
    have hbit := h (8 * (512 + i) + j) (by omega)
    have htag : ¬8 * (512 + i) + j < 4096 := by omega
    have hbyte : (8 * (512 + i) + j) / 8 - 512 = i := by omega
    have hcol : (8 * (512 + i) + j) % 8 = j := by omega
    unfold bitAt at hbit
    rw [if_neg htag, if_neg htag, hbyte, hcol] at hbit
    exact hbit

/-- A bad register is not located inside the chunk and the tag. -/
theorem Bad.locate {tagLen : Nat} {reg : Word} (h : Bad tagLen reg) :
    eccLocate reg = none ∨ ∃ byte mask, eccLocate reg = some (byte, mask) ∧ 512 + tagLen ≤ byte := by
  by_cases hone : ∃ i, OneHot reg i
  · obtain ⟨i, hi⟩ := hone
    rw [eccLocate_oneHot hi, locateIn_eq hi.1]
    obtain hneg | hfar := h i hi
    · exact .inl (if_pos hneg)
    · rw [if_neg (by omega)]
      exact .inr ⟨_, _, rfl, by omega⟩
  · exact .inl (eccLocate_none fun i hi => hone ⟨i, hi⟩)

theorem applyFrom_rejects {tagLen : Nat} {regs : List Word}
    (h : ∃ reg ∈ regs, reg ≠ 0 ∧ Bad tagLen reg) (applied : Nat) (data tag : Nat → Byte) :
    (applyFrom tagLen applied data tag regs).rc = -1 := by
  induction regs generalizing applied data tag with
  | nil =>
    obtain ⟨reg, hmem, -⟩ := h
    cases hmem
  | cons r regs ih =>
    obtain ⟨reg, hmem, hne, hbad⟩ := h
    rw [applyFrom]
    obtain rfl | hmem := List.mem_cons.mp hmem
    · rw [if_neg hne]
      obtain hnone | ⟨byte, mask, hsome, hfar⟩ := hbad.locate
      · rw [hnone]
      · simp only [hsome]
        rw [if_neg (by omega), if_neg (by omega)]
    · have ih := ih ⟨reg, hmem, hne, hbad⟩
      split
      · exact ih _ _ _
      · split
        · rfl
        · split
          · exact ih _ _ _
          · split
            · exact ih _ _ _
            · rfl

theorem applyFrom_inside (tagLen : Nat) (regs : List Word) (applied : Nat) (data tag : Nat → Byte) :
    (∀ i, 512 ≤ i → (applyFrom tagLen applied data tag regs).data i = data i) ∧
      ∀ i, tagLen ≤ i → (applyFrom tagLen applied data tag regs).tag i = tag i := by
  induction regs generalizing applied data tag with
  | nil => exact ⟨fun _ _ => rfl, fun _ _ => rfl⟩
  | cons r regs ih =>
    rw [applyFrom]
    split
    · exact ih _ _ _
    · split
      · exact ⟨fun _ _ => rfl, fun _ _ => rfl⟩
      · rename_i byte mask hlocate
        split
        · rename_i hbyte
          obtain ⟨hd, ht⟩ := ih (applied + 1) (toggle data byte mask) tag
          refine ⟨fun i hi => ?_, ht⟩
          rw [hd i hi, toggle, Function.update_of_ne (by omega)]
        · split
          · rename_i hbyte
            obtain ⟨hd, ht⟩ := ih (applied + 1) data (toggle tag (byte - 512) mask)
            refine ⟨hd, fun i hi => ?_⟩
            rw [ht i hi, toggle, Function.update_of_ne (by omega)]
          · exact ⟨fun _ _ => rfl, fun _ _ => rfl⟩

theorem applyFrom_zeros {regs : List Word} (h : ∀ reg ∈ regs, reg = 0) (tagLen : Nat)
    (data tag : Nat → Byte) : (applyFrom tagLen 0 data tag regs).rc = -1 := by
  induction regs with
  | nil => rfl
  | cons reg regs ih =>
    rw [applyFrom, if_pos (h reg List.mem_cons_self)]
    exact ih fun r hr => h r (List.mem_cons_of_mem _ hr)

theorem segBase_eq : ∀ pair < 5, segBase pair = 128 * (pair : Int) - 112 := by
  decide

/-- Every bit of the chunk and the tag has a register. -/
theorem exists_encodes (off : Nat) (hoff : off < 8 * 516) : ∃ reg, Encodes reg off := by
  have hpair : (off + 900) / 1024 < 5 := by omega
  refine ⟨_, (off + 900) / 1024, hpair, (off + 900) % 2, by omega, (off + 900) % 1024 / 2,
    by omega, rfl, ?_⟩
  rw [bitOffset, segBase_eq _ hpair]
  omega

theorem eccApply_corrects :
    (∀ (regs : List Word) (offs : List Nat) (data tag data' tag' : Nat → Byte),
      offs ≠ [] → offs.Nodup → (∀ off ∈ offs, off < 8 * 516) → Reports regs offs →
      (∀ x < 8 * 516, bitAt data' tag' x = Bool.xor (bitAt data tag x) (decide (x ∈ offs))) →
      (eccApply regs data' tag' 4).rc = 0 ∧
        (∀ i < 512, (eccApply regs data' tag' 4).data i = data i) ∧
        ∀ i < 4, (eccApply regs data' tag' 4).tag i = tag i) ∧
    (∀ off < 8 * 516, ∃ reg, Encodes reg off) ∧
    (∀ (regs : List Word) (data tag : Nat → Byte) (tagLen : Nat),
      ((∃ reg ∈ regs, reg ≠ 0 ∧ Bad tagLen reg) → (eccApply regs data tag tagLen).rc = -1) ∧
      (∀ i, 512 ≤ i → (eccApply regs data tag tagLen).data i = data i) ∧
      (∀ i, tagLen ≤ i → (eccApply regs data tag tagLen).tag i = tag i) ∧
      ((∀ reg ∈ regs, reg = 0) → (eccApply regs data tag tagLen).rc = -1)) := by
  refine ⟨?_, ?_, ?_⟩
  · intro regs offs data tag data' tag' hne hnd hin hreports hbits
    obtain ⟨hrc, hclean⟩ := applyFrom_restores hreports hnd hin (.inr hne) hbits
    exact ⟨hrc, bytes_of_bits hclean⟩
  · exact exists_encodes
  · intro regs data tag tagLen
    obtain ⟨hdata, htag⟩ := applyFrom_inside tagLen regs 0 data tag
    exact ⟨fun h => applyFrom_rejects h 0 data tag, hdata, htag,
      fun h => applyFrom_zeros h tagLen data tag⟩

/-- A zero register has no one-hot selector either, and is skipped. -/
theorem eccApply_skips_zero :
    ¬ ∀ (regs : List Word) (data tag : Nat → Byte) (tagLen : Nat),
      (∃ before reg after, regs = before ++ reg :: after ∧ (∀ r ∈ before, ¬ Bad tagLen r) ∧
        Bad tagLen reg) → (eccApply regs data tag tagLen).rc = -1 := by
  intro h
  have hbad : Bad 4 0 := by
    intro i hi
    have hclear : ∀ i < 10, selector 0 ≠ (1 : Word) <<< i := by decide
    exact absurd hi.2 (hclear i hi.1)
  have hrc := h [0, register 0 0 450] (fun _ => 0) (fun _ => 0) 4
    ⟨[], 0, [register 0 0 450], rfl, by simp, hbad⟩
  have hlocate : eccLocate (register 0 0 450) = some (0, (1 : Byte) <<< 7) := by decide +kernel
  have hzero : (eccApply [0, register 0 0 450] (fun _ => 0) (fun _ => 0) 4).rc = 0 := by
    rw [eccApply, applyFrom, if_pos rfl, applyFrom, if_neg (by decide), hlocate]
    rfl
  rw [hzero] at hrc
  exact absurd hrc (by decide)

end AipcOs.Ecc
