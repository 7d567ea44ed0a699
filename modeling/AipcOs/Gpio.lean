import AipcOs.WordBits

/-! The GPIO controller of the AK7802 and AK880x: a line as one read, a grouped read and the
interrupt scan see it. -/
namespace AipcOs.Gpio
open ByteMemory WordBits

def ANYKA_GPIO_DIR1 : Nat := 0x08
def ANYKA_GPIO_OUT1 : Nat := 0x0c
def ANYKA_GPIO_IN1 : Nat := 0x48
def ANYKA_GPIO_INT_CTRL1 : Nat := 0x6c
def ANYKA_GPIO_INTP1 : Nat := 0x7c
def ANYKA_GPIO_GROUP_SIZE : Nat := 32

def IRQ_TYPE_NONE : Word := 0
def IRQ_TYPE_LEVEL_HIGH : Word := 4
def IRQ_TYPE_LEVEL_LOW : Word := 8
def IRQ_TYPE_SENSE_MASK : Word := 0xf
def EINVAL : Int := 22

/-- The registers, by byte offset from the controller's base. -/
abbrev Regs := Nat → Word

abbrev Bitmap := Nat → Bool

structure AnykaGpio where
  ngpio : BitVec 16
  ak7802 : Bool

def updateBit (r : Regs) (reg bit : Nat) (set : Bool) : Regs :=
  if set then Function.update r reg (r reg ||| 1#32 <<< bit)
  else Function.update r reg (r reg &&& ~~~(1#32 <<< bit))

def dirReg (offset : Nat) : Nat := ANYKA_GPIO_DIR1 + offset / ANYKA_GPIO_GROUP_SIZE * 8
def outReg (offset : Nat) : Nat := ANYKA_GPIO_OUT1 + offset / ANYKA_GPIO_GROUP_SIZE * 8
def inReg (offset : Nat) : Nat := ANYKA_GPIO_IN1 + offset / ANYKA_GPIO_GROUP_SIZE * 4
def irqEnReg (offset : Nat) : Nat := ANYKA_GPIO_INT_CTRL1 + offset / ANYKA_GPIO_GROUP_SIZE * 4
def irqPolReg (offset : Nat) : Nat := ANYKA_GPIO_INTP1 + offset / ANYKA_GPIO_GROUP_SIZE * 4
def gpioBit (offset : Nat) : Nat := offset % ANYKA_GPIO_GROUP_SIZE

def readIn (ag : AnykaGpio) (r : Regs) (offset : Nat) : Word :=
  if ag.ak7802 && decide (96 ≤ offset) then r (inReg offset) <<< 3 else r (inReg offset)

def groupCount (ngpio : Nat) : Nat := (ngpio + ANYKA_GPIO_GROUP_SIZE - 1) / ANYKA_GPIO_GROUP_SIZE

def genmask (h : Nat) : Word := BitVec.ofNat 32 (2 ^ (h + 1) - 1)

/-- Called for groups below `groupCount` only, where the difference does not wrap. -/
def groupMask (ag : AnykaGpio) (group : Nat) : Word :=
  let offset := group * ANYKA_GPIO_GROUP_SIZE
  let remaining := ag.ngpio.toNat - offset
  if ANYKA_GPIO_GROUP_SIZE ≤ remaining then genmask (ANYKA_GPIO_GROUP_SIZE - 1)
  else genmask (remaining - 1)

def getDirection (r : Regs) (offset : Nat) : Nat :=
  if r (dirReg offset) &&& 1#32 <<< gpioBit offset ≠ 0 then 1 else 0

def get (ag : AnykaGpio) (r : Regs) (offset : Nat) : Nat :=
  let val := if getDirection r offset ≠ 0 then readIn ag r offset else r (outReg offset)
  if val &&& 1#32 <<< gpioBit offset ≠ 0 then 1 else 0

def bitmapRead (b : Bitmap) (start : Nat) : Word := BitVec.ofFnLE fun i : Fin 32 => b (start + i)

def bitmapWrite (b : Bitmap) (val : Word) (start : Nat) : Bitmap := fun i =>
  if start ≤ i ∧ i < start + 32 then val.getLsbD (i - start) else b i

/-- One pass of the grouped read. A group the caller did not ask for is left as it is. -/
def getGroup (ag : AnykaGpio) (r : Regs) (mask bits : Bitmap) (group : Nat) : Bitmap :=
  let offset := group * ANYKA_GPIO_GROUP_SIZE
  let m := bitmapRead mask offset
  if m = 0 then bits
  else
    let dir := r (dirReg offset)
    let val := readIn ag r offset &&& dir ||| r (outReg offset) &&& ~~~dir
    bitmapWrite bits (val &&& m) offset

def getMultiple (ag : AnykaGpio) (r : Regs) (mask bits : Bitmap) : Bitmap :=
  (List.range (groupCount ag.ngpio.toNat)).foldl (getGroup ag r mask) bits

def irqSetType (r : Regs) (offset : Nat) (type : Word) : Int × Regs :=
  let sense := type &&& IRQ_TYPE_SENSE_MASK
  if sense = IRQ_TYPE_LEVEL_HIGH ∨ sense = IRQ_TYPE_LEVEL_LOW then
    (0, updateBit r (irqPolReg offset) (gpioBit offset) (sense == IRQ_TYPE_LEVEL_LOW))
  else if sense = IRQ_TYPE_NONE then (0, r)
  else (-EINVAL, r)

def handleGroup (ag : AnykaGpio) (r : Regs) (group : Nat) : List Nat :=
  let offset := group * ANYKA_GPIO_GROUP_SIZE
  let enabled := r (ANYKA_GPIO_INT_CTRL1 + group * 4) &&& groupMask ag group
  if enabled = 0 then []
  else
    let pending := (r (ANYKA_GPIO_INTP1 + group * 4) ^^^ r (ANYKA_GPIO_IN1 + group * 4)) &&& enabled
    (scanBits pending).map (offset + ·)

def irqHandler (ag : AnykaGpio) (r : Regs) : List Nat :=
  (List.range (groupCount ag.ngpio.toNat)).flatMap (handleGroup ag r)

def line (ag : AnykaGpio) (r : Regs) (o : Nat) : Bool :=
  if (r (dirReg o)).getLsbD (gpioBit o) then (readIn ag r o).getLsbD (gpioBit o)
  else (r (outReg o)).getLsbD (gpioBit o)

def Unmasked (r : Regs) (o : Nat) : Prop := (r (irqEnReg o)).getLsbD (gpioBit o) = true

theorem gpioBit_lt (o : Nat) : gpioBit o < 32 := Nat.mod_lt o (by decide)

theorem getDirection_ne_zero (r : Regs) (o : Nat) :
    getDirection r o ≠ 0 ↔ (r (dirReg o)).getLsbD (gpioBit o) = true := by
  rw [← and_bit_ne_zero _ _ (gpioBit_lt o), getDirection]
  split <;> simp_all

theorem get_eq (ag : AnykaGpio) (r : Regs) (o : Nat) :
    get ag r o = if line ag r o then 1 else 0 := by
  have hval (w : Word) : (if w &&& 1#32 <<< gpioBit o ≠ 0 then 1 else 0) =
      if w.getLsbD (gpioBit o) then 1 else 0 := by
    simp only [and_bit_ne_zero w _ (gpioBit_lt o)]
  rw [get, line, hval]
  by_cases hd : (r (dirReg o)).getLsbD (gpioBit o) = true
  · rw [if_pos ((getDirection_ne_zero r o).mpr hd), if_pos hd]
  · have hz : ¬getDirection r o ≠ 0 := fun h => hd ((getDirection_ne_zero r o).mp h)
    rw [if_neg hz, if_neg hd]

theorem genmask_getLsbD (h i : Nat) (hi : i < 32) : (genmask h).getLsbD i = decide (i ≤ h) := by
  rw [genmask, BitVec.getLsbD_ofNat, Nat.testBit_two_pow_sub_one]
  simp [hi]

theorem groupMask_getLsbD (ag : AnykaGpio) (g i : Nat) (hg : g * 32 < ag.ngpio.toNat)
    (hi : i < 32) : (groupMask ag g).getLsbD i = decide (g * 32 + i < ag.ngpio.toNat) := by
  rw [groupMask, ANYKA_GPIO_GROUP_SIZE]
  by_cases hfull : 32 ≤ ag.ngpio.toNat - g * 32
  · rw [if_pos hfull, genmask_getLsbD _ i hi]
    exact decide_eq_decide.mpr (by omega)
  · rw [if_neg hfull, genmask_getLsbD _ i hi]
    exact decide_eq_decide.mpr (by omega)

theorem lt_groupCount (n g : Nat) : g < groupCount n ↔ g * 32 < n := by
  simp only [groupCount, ANYKA_GPIO_GROUP_SIZE]
  omega

/-- Skipping a group with nothing enabled changes nothing. -/
theorem handleGroup_eq (ag : AnykaGpio) (r : Regs) (g : Nat) :
    handleGroup ag r g = (scanBits ((r (ANYKA_GPIO_INTP1 + g * 4) ^^^ r (ANYKA_GPIO_IN1 + g * 4)) &&&
      (r (ANYKA_GPIO_INT_CTRL1 + g * 4) &&& groupMask ag g))).map (g * 32 + ·) := by
  simp only [handleGroup, ANYKA_GPIO_GROUP_SIZE]
  split <;> rename_i h
  · have hzero (w : Word) : w &&& 0 = 0 := BitVec.and_zero
    rw [h, hzero, scanBits, if_pos rfl]
    rfl
  · rfl

theorem mem_handleGroup (ag : AnykaGpio) (r : Regs) (g o : Nat) (hg : g * 32 < ag.ngpio.toNat) :
    o ∈ handleGroup ag r g ↔ o / 32 = g ∧ o < ag.ngpio.toNat ∧ Unmasked r o ∧
      (r (irqPolReg o)).getLsbD (gpioBit o) ≠ (r (inReg o)).getLsbD (gpioBit o) := by
  rw [handleGroup_eq, List.mem_map]
  constructor
  · intro hex
    obtain ⟨b, hb, rfl⟩ := hex
    have hlt := scanBits_lt hb
    have hdiv : (g * 32 + b) / 32 = g := by omega
    have hmod : (g * 32 + b) % 32 = b := by omega
    rw [mem_scanBits, BitVec.getLsbD_and, BitVec.getLsbD_and, BitVec.getLsbD_xor,
      groupMask_getLsbD ag g b hg hlt] at hb
    simp only [Bool.and_eq_true, decide_eq_true_eq, bne_iff_ne, ne_eq] at hb
    refine ⟨hdiv, hb.2.2, ?_, ?_⟩
    · simp only [Unmasked, irqEnReg, gpioBit, ANYKA_GPIO_GROUP_SIZE, hdiv, hmod]
      exact hb.2.1
    · simp only [irqPolReg, inReg, gpioBit, ANYKA_GPIO_GROUP_SIZE, hdiv, hmod]
      exact hb.1
  · intro hex
    obtain ⟨rfl, ho, hen, hpol⟩ := hex
    have hsplit : o / 32 * 32 + o % 32 = o := by omega
    refine ⟨o % 32, ?_, hsplit⟩
    rw [mem_scanBits, BitVec.getLsbD_and, BitVec.getLsbD_and, BitVec.getLsbD_xor,
      groupMask_getLsbD ag _ _ hg (Nat.mod_lt o (by decide)), hsplit]
    simp only [Bool.and_eq_true, decide_eq_true_eq, bne_iff_ne]
    exact ⟨hpol, hen, ho⟩

/-- The handler compares polarity with the input register as it stands. -/
theorem mem_irqHandler (ag : AnykaGpio) (r : Regs) (o : Nat) :
    o ∈ irqHandler ag r ↔ o < ag.ngpio.toNat ∧ Unmasked r o ∧
      (r (irqPolReg o)).getLsbD (gpioBit o) ≠ (r (inReg o)).getLsbD (gpioBit o) := by
  rw [irqHandler, List.mem_flatMap]
  constructor
  · intro hex
    obtain ⟨g, hg, hmem⟩ := hex
    rw [List.mem_range, lt_groupCount] at hg
    exact ((mem_handleGroup ag r g o hg).mp hmem).2
  · intro h
    have hg : o / 32 * 32 < ag.ngpio.toNat := by omega
    refine ⟨o / 32, List.mem_range.mpr ((lt_groupCount _ _).mpr hg), ?_⟩
    exact (mem_handleGroup ag r _ o hg).mpr ⟨rfl, h⟩

theorem irqHandler_nodup (ag : AnykaGpio) (r : Regs) : (irqHandler ag r).Nodup := by
  rw [irqHandler, List.nodup_flatMap]
  constructor
  · intro g _
    rw [handleGroup_eq]
    exact (scanBits_nodup _).map (add_right_injective _)
  · refine List.Nodup.pairwise_of_forall_ne List.nodup_range ?_
    intro g hg g' hg' hne o ho ho'
    rw [List.mem_range, lt_groupCount] at hg hg'
    apply hne
    rw [← ((mem_handleGroup ag r g o hg).mp ho).1, ((mem_handleGroup ag r g' o hg').mp ho').1]

theorem readIn_group (ag : AnykaGpio) (r : Regs) (o : Nat) :
    readIn ag r (o / 32 * 32) = readIn ag r o := by
  have hdiv : o / 32 * 32 / 32 = o / 32 := by omega
  have hge : 96 ≤ o / 32 * 32 ↔ 96 ≤ o := by omega
  simp only [readIn, inReg, ANYKA_GPIO_GROUP_SIZE, hdiv, hge]

/-- The pass of a line's own group stores its level. -/
theorem getGroup_own (ag : AnykaGpio) (r : Regs) (mask bits : Bitmap) (o : Nat)
    (hm : mask o = true) : getGroup ag r mask bits (o / 32) o = line ag r o := by
  have hdiv : o / 32 * 32 / 32 = o / 32 := by omega
  have hsplit : o / 32 * 32 + o % 32 = o := by omega
  have hsub : o - o / 32 * 32 = o % 32 := by omega
  have hlt : o % 32 < 32 := Nat.mod_lt o (by decide)
  have hbit : (bitmapRead mask (o / 32 * 32)).getLsbD (o % 32) = true := by
    rw [bitmapRead, BitVec.getLsbD_ofFnLE]
    simp [hlt, hsplit, hm]
  have hne : bitmapRead mask (o / 32 * 32) ≠ 0 := by
    intro h
    rw [h] at hbit
    simp at hbit
  have hrange : o / 32 * 32 ≤ o ∧ o < o / 32 * 32 + 32 := by omega
  simp only [getGroup, ANYKA_GPIO_GROUP_SIZE, if_neg hne, bitmapWrite, if_pos hrange, hsub,
    readIn_group, BitVec.getLsbD_and, BitVec.getLsbD_or, BitVec.getLsbD_not, hbit, hlt]
  simp only [line, gpioBit, dirReg, outReg, ANYKA_GPIO_GROUP_SIZE, hdiv]
  by_cases hd : (r (ANYKA_GPIO_DIR1 + o / 32 * 8)).getLsbD (o % 32) = true <;> simp [hd]

theorem getGroup_other (ag : AnykaGpio) (r : Regs) (mask bits : Bitmap) (g o : Nat)
    (hg : o / 32 ≠ g) : getGroup ag r mask bits g o = bits o := by
  have hout : ¬(g * 32 ≤ o ∧ o < g * 32 + 32) := by omega
  rw [getGroup, ANYKA_GPIO_GROUP_SIZE]
  by_cases hm : bitmapRead mask (g * 32) = 0
  · rw [if_pos hm]
  · rw [if_neg hm, bitmapWrite, if_neg hout]

theorem getGroups_other (ag : AnykaGpio) (r : Regs) (mask bits : Bitmap) (gs : List Nat) (o : Nat)
    (hg : o / 32 ∉ gs) : gs.foldl (getGroup ag r mask) bits o = bits o := by
  induction gs generalizing bits with
  | nil => rfl
  | cons g gs ih =>
    rw [List.mem_cons, not_or] at hg
    rw [List.foldl_cons, ih _ hg.2, getGroup_other ag r mask bits g o hg.1]

theorem getGroups_own (ag : AnykaGpio) (r : Regs) (mask bits : Bitmap) (gs : List Nat) (o : Nat)
    (hm : mask o = true) (hg : o / 32 ∈ gs) :
    gs.foldl (getGroup ag r mask) bits o = line ag r o := by
  induction gs generalizing bits with
  | nil => exact absurd hg List.not_mem_nil
  | cons g gs ih =>
    rw [List.foldl_cons]
    by_cases hrest : o / 32 ∈ gs
    · exact ih _ hrest
    · obtain rfl : o / 32 = g := by
        rcases List.mem_cons.mp hg with h | h
        · exact h
        · exact absurd h hrest
      rw [getGroups_other ag r mask _ gs o hrest, getGroup_own ag r mask bits o hm]

theorem getMultiple_eq (ag : AnykaGpio) (r : Regs) (mask bits : Bitmap) (o : Nat)
    (ho : o < ag.ngpio.toNat) (hm : mask o = true) : getMultiple ag r mask bits o = line ag r o := by
  have hg : o / 32 * 32 < ag.ngpio.toNat := by omega
  exact getGroups_own ag r mask bits _ o hm (List.mem_range.mpr ((lt_groupCount _ _).mpr hg))

def IsLevel (type : Word) : Prop :=
  type &&& IRQ_TYPE_SENSE_MASK = IRQ_TYPE_LEVEL_HIGH ∨
    type &&& IRQ_TYPE_SENSE_MASK = IRQ_TYPE_LEVEL_LOW

def activeLevel (type : Word) : Nat :=
  if type &&& IRQ_TYPE_SENSE_MASK = IRQ_TYPE_LEVEL_LOW then 0 else 1

theorem updateBit_getLsbD (r : Regs) (reg bit : Nat) (set : Bool) (hb : bit < 32) :
    (updateBit r reg bit set reg).getLsbD bit = set := by
  cases set with
  | true =>
    rw [updateBit, if_pos rfl, Function.update_self, or_bit_getLsbD _ _ _ hb]
    simp
  | false =>
    rw [updateBit, if_neg Bool.false_ne_true, Function.update_self, clear_bit_getLsbD _ _ _ hb]
    simp

theorem irqSetType_polarity (r : Regs) (o : Nat) (type : Word) (ht : IsLevel type) :
    ((irqSetType r o type).2 (irqPolReg o)).getLsbD (gpioBit o) = decide (activeLevel type = 0) := by
  have hset : (irqSetType r o type).2 = updateBit r (irqPolReg o) (gpioBit o)
      (type &&& IRQ_TYPE_SENSE_MASK == IRQ_TYPE_LEVEL_LOW) := by
    unfold IsLevel at ht
    rw [irqSetType, if_pos ht]
  rw [hset, updateBit_getLsbD _ _ _ _ (gpioBit_lt o), activeLevel]
  by_cases hlow : type &&& IRQ_TYPE_SENSE_MASK = IRQ_TYPE_LEVEL_LOW <;> simp [hlow]

/-- The interrupt scan and the two reads see one line: it is dispatched, at most once, when it is
unmasked and at the level asked for. -/
structure SameLine (ag : AnykaGpio) (r : Regs) (o level : Nat) : Prop where
  dispatched : o ∈ irqHandler ag r ↔ Unmasked r o ∧ get ag r o = level
  grouped : ∀ mask bits : Bitmap, mask o = true →
    getMultiple ag r mask bits o = decide (get ag r o = 1)
  once : (irqHandler ag r).count o ≤ 1
  bounded : ∀ p ∈ irqHandler ag r, p < ag.ngpio.toNat

/-- The scan does not shift the input word of the fourth group, which the reads do on the AK7802.
The two bits must then happen to be equal, or the line be masked. -/
def ShiftUnseen (ag : AnykaGpio) (r : Regs) (o : Nat) : Prop :=
  ag.ak7802 = true → 96 ≤ o → Unmasked r o →
    (r (inReg o)).getLsbD (gpioBit o) = (r (inReg o) <<< 3).getLsbD (gpioBit o)

theorem line_input (ag : AnykaGpio) (r : Regs) (o : Nat) (hin : getDirection r o = 1) :
    line ag r o = (readIn ag r o).getLsbD (gpioBit o) := by
  have hd := (getDirection_ne_zero r o).mp (by rw [hin]; decide)
  rw [line, if_pos hd]

/-- The raw input bit is the line's level, or the line is masked. -/
theorem shiftUnseen_iff (ag : AnykaGpio) (r : Regs) (o : Nat) (hin : getDirection r o = 1) :
    ShiftUnseen ag r o ↔ (Unmasked r o → (r (inReg o)).getLsbD (gpioBit o) = line ag r o) := by
  rw [line_input ag r o hin, readIn, ShiftUnseen]
  by_cases hs : ag.ak7802 = true ∧ 96 ≤ o
  · have hc : (ag.ak7802 && decide (96 ≤ o)) = true := by simp [hs]
    rw [if_pos hc]
    exact ⟨fun h => h hs.1 hs.2, fun h _ _ => h⟩
  · have hc : ¬(ag.ak7802 && decide (96 ≤ o)) = true := by simpa using hs
    rw [if_neg hc]
    exact ⟨fun _ _ => rfl, fun _ h h' => absurd ⟨h, h'⟩ hs⟩

/-- Equal to the level asked for, as the scan tests it: different from the polarity bit. -/
theorem get_eq_activeLevel (ag : AnykaGpio) (r : Regs) (o : Nat) (type : Word) :
    get ag r o = activeLevel type ↔ decide (activeLevel type = 0) ≠ line ag r o := by
  rw [get_eq, activeLevel]
  by_cases hlow : type &&& IRQ_TYPE_SENSE_MASK = IRQ_TYPE_LEVEL_LOW
  · cases line ag r o <;> simp [hlow]
  · cases line ag r o <;> simp [hlow]

theorem irq_sees_line_iff (ag : AnykaGpio) (before r : Regs) (o : Nat) (type : Word)
    (ho : o < ag.ngpio.toNat) (hin : getDirection r o = 1) (ht : IsLevel type)
    (hlast : (r (irqPolReg o)).getLsbD (gpioBit o) =
      ((irqSetType before o type).2 (irqPolReg o)).getLsbD (gpioBit o)) :
    SameLine ag r o (activeLevel type) ↔ ShiftUnseen ag r o := by
  rw [irqSetType_polarity before o type ht] at hlast
  rw [shiftUnseen_iff ag r o hin]
  constructor
  · intro h hen
    have hd := h.dispatched
    rw [mem_irqHandler, hlast, get_eq_activeLevel] at hd
    by_contra hne
    have hiff : decide (activeLevel type = 0) ≠ (r (inReg o)).getLsbD (gpioBit o) ↔
        decide (activeLevel type = 0) ≠ line ag r o :=
      ⟨fun hb => (hd.mp ⟨ho, hen, hb⟩).2, fun hb => (hd.mpr ⟨hen, hb⟩).2.2⟩
    revert hiff hne
    cases decide (activeLevel type = 0) <;> cases (r (inReg o)).getLsbD (gpioBit o) <;>
      cases line ag r o <;> simp
  · intro h
    refine ⟨?_, ?_, List.nodup_iff_count_le_one.mp (irqHandler_nodup ag r) o, ?_⟩
    · rw [mem_irqHandler, hlast, get_eq_activeLevel]
      constructor
      · intro hboth
        obtain ⟨_, hen, hb⟩ := hboth
        rw [h hen] at hb
        exact ⟨hen, hb⟩
      · intro hboth
        obtain ⟨hen, hb⟩ := hboth
        rw [← h hen] at hb
        exact ⟨ho, hen, hb⟩
    · intro mask bits hm
      rw [getMultiple_eq ag r mask bits o ho hm, get_eq]
      cases line ag r o <;> simp
    · intro p hp
      exact ((mem_irqHandler ag r p).mp hp).1

def highLine : Regs :=
  (irqSetType (fun reg => if reg = 0x08 ∨ reg = 0x48 ∨ reg = 0x6c then 0x8 else 0) 3
    IRQ_TYPE_LEVEL_HIGH).2

theorem irq_sees_line_three :
    Unmasked highLine 3 ∧ get ⟨117, true⟩ highLine 3 = activeLevel IRQ_TYPE_LEVEL_HIGH ∧
      SameLine ⟨117, true⟩ highLine 3 (activeLevel IRQ_TYPE_LEVEL_HIGH) := by
  have hen : Unmasked highLine 3 := by
    unfold Unmasked
    decide
  refine ⟨hen, by decide, ?_⟩
  exact (irq_sees_line_iff ⟨117, true⟩ (fun _ => 0) highLine 3 IRQ_TYPE_LEVEL_HIGH (by decide)
    (by decide) (Or.inl (by decide)) (by decide)).mpr fun _ hfar => absurd hfar (by decide)

def shiftedLine : Regs := fun reg =>
  if reg = 0x20 then 0x10 else if reg = 0x54 then 0x2 else if reg = 0x78 then 0x10 else 0

/-- High, unmasked and asked for high, and not dispatched. -/
theorem irq_misses_line_100 :
    getDirection (irqSetType shiftedLine 100 IRQ_TYPE_LEVEL_HIGH).2 100 = 1 ∧
      ¬SameLine ⟨117, true⟩ (irqSetType shiftedLine 100 IRQ_TYPE_LEVEL_HIGH).2 100
        (activeLevel IRQ_TYPE_LEVEL_HIGH) := by
  refine ⟨by decide, fun h => ?_⟩
  have hen : Unmasked (irqSetType shiftedLine 100 IRQ_TYPE_LEVEL_HIGH).2 100 := by
    unfold Unmasked
    decide
  have hget : get ⟨117, true⟩ (irqSetType shiftedLine 100 IRQ_TYPE_LEVEL_HIGH).2 100 =
      activeLevel IRQ_TYPE_LEVEL_HIGH := by decide
  have hmem := h.dispatched.mpr ⟨hen, hget⟩
  rw [mem_irqHandler] at hmem
  exact hmem.2.2 (by decide)

end AipcOs.Gpio
