import AipcOs.LzxBlock
import Mathlib.Data.Nat.Find

/-! What an LZX block says, in literals and copies, and that __decompress_block does it. -/
namespace AipcOs.LzxTokens
open ByteMemory MsbBits LzxBits LzxTable LzxSymbols LzxLengths LzxBlock

structure Recent where
  R0 : Nat
  R1 : Nat
  R2 : Nat

inductive Offset where
  | r0
  | r1
  | r2
  | new (d : Nat)

inductive Token where
  | literal (b : Byte)
  | copy (o : Offset) (len : Nat)

structure Code where
  main : List Nat
  len : List Nat
  align : List Nat
  aligned : Bool

def slotOf (f : Nat) : Nat := Nat.findGreatest (fun i => position_base.getD i 0 ≤ f) 50

namespace Offset

def turn (r : Recent) : Offset → Nat × Recent
  | r0 => (r.R0, r)
  | r1 => (r.R1, ⟨r.R1, r.R0, r.R2⟩)
  | r2 => (r.R2, ⟨r.R2, r.R1, r.R0⟩)
  | new d => (d, ⟨d, r.R0, r.R1⟩)

def slot : Offset → Nat
  | r0 => 0
  | r1 => 1
  | r2 => 2
  | new d => slotOf (d + 2)

def extra (o : Offset) : Nat := extra_bits.getD o.slot 0

def footer : Offset → Nat
  | new d => d + 2 - position_base.getD (slotOf (d + 2)) 0
  | _ => 0

def word (c : Code) (o : Offset) : List Bool :=
  if c.aligned ∧ o.extra ≥ 3 then bits (o.extra - 3) (o.footer / 8) ++ wordOf c.align 8 (o.footer % 8)
  else bits o.extra o.footer

def Valid (c : Code) (size : Nat) (o : Offset) : Prop :=
  (match o with
    | new d => 0 < d ∧ d + 2 < size
    | _ => True) ∧
  (c.aligned ∧ o.extra ≥ 3 → 0 < c.align.getD (o.footer % 8) 0)

instance (c : Code) (size : Nat) (o : Offset) : Decidable (o.Valid c size) :=
  match o with
  | new d => inferInstanceAs (Decidable ((0 < d ∧ d + 2 < size) ∧ (c.aligned ∧ _ → _)))
  | r0 => inferInstanceAs (Decidable (True ∧ (c.aligned ∧ _ → _)))
  | r1 => inferInstanceAs (Decidable (True ∧ (c.aligned ∧ _ → _)))
  | r2 => inferInstanceAs (Decidable (True ∧ (c.aligned ∧ _ → _)))

end Offset

namespace Token

def size : Token → Nat
  | literal _ => 1
  | copy _ len => len

def symbol : Token → Nat
  | literal b => b.toNat
  | copy o len => 256 + (o.slot * 8 + min 7 (len - 2))

def word (c : Code) : Token → List Bool
  | literal b => wordOf c.main 664 b.toNat
  | copy o len =>
    wordOf c.main 664 (symbol (copy o len)) ++
      ((if len < 9 then [] else wordOf c.len 249 (len - 9)) ++ o.word c)

def Valid (c : Code) (size : Nat) (t : Token) : Prop :=
  0 < c.main.getD t.symbol 0 ∧
  (match t with
    | literal _ => True
    | copy o len => 2 ≤ len ∧ len ≤ 257 ∧ (9 ≤ len → 0 < c.len.getD (len - 9) 0) ∧ o.Valid c size)

instance (c : Code) (size : Nat) (t : Token) : Decidable (t.Valid c size) :=
  match t with
  | literal _ => inferInstanceAs (Decidable (0 < _ ∧ True))
  | copy o len => inferInstanceAs (Decidable (0 < _ ∧ 2 ≤ len ∧ len ≤ 257 ∧
      (9 ≤ len → 0 < c.len.getD (len - 9) 0) ∧ o.Valid c size))

/-- What is written, and the recent offsets after it; before the output stands 0xDC. -/
def apply (t : Token) (st : List Byte × Recent) : List Byte × Recent :=
  match t with
  | literal b => (st.1 ++ [b], st.2)
  | copy o len => (Lz77.repeatBack 0xDC (o.turn st.2).1 len st.1, (o.turn st.2).2)

end Token

def expand (tokens : List Token) (st : List Byte × Recent) : List Byte × Recent :=
  tokens.foldl (fun st t => t.apply st) st

def size (tokens : List Token) : Nat := (tokens.map Token.size).sum

def Recent.Inside (r : Recent) (size : Nat) : Prop :=
  (0 < r.R0 ∧ r.R0 ≤ size) ∧ (0 < r.R1 ∧ r.R1 ≤ size) ∧ 0 < r.R2 ∧ r.R2 ≤ size

structure Code.Valid (c : Code) : Prop where
  main : Usable 664 11 c.main ∧ ∀ s < 664, c.main.getD s 0 ≤ 16
  len : Usable 249 10 c.len ∧ ∀ s < 249, c.len.getD s 0 ≤ 16
  align : c.aligned → Usable 8 7 c.align ∧ ∀ s < 8, c.align.getD s 0 ≤ 8

structure Loaded (c : Code) (s : LZXState) : Prop where
  block_type : s.block_type = if c.aligned then BLOCKTYPE_ALIGNED else BLOCKTYPE_VERBATIM
  main : s.maintree_len = c.main ∧ Leads 664 11 c.main s.maintree_table
  len : s.lentree_len = c.len ∧ Leads 249 10 c.len s.lentree_table
  align : c.aligned → s.aligntree_len = c.align ∧ Leads 8 7 c.align s.aligntree_table

def put (s : LZXState) (st : List Byte × Recent) (rest : Int) : LZXState :=
  { s with
    R0 := st.2.R0, R1 := st.2.R1, R2 := st.2.R2
    window := Lz77.window 0xDC s.window_size st.1
    window_posn := st.1.length
    block_remaining := rest }

section slots

theorem slotOf_le (f : Nat) : position_base.getD (slotOf f) 0 ≤ f ∧ slotOf f ≤ 50 :=
  ⟨Nat.findGreatest_spec (P := fun i => position_base.getD i 0 ≤ f) (Nat.zero_le 50)
    (Nat.zero_le f), Nat.findGreatest_le 50⟩

/-- The slots lie one behind the other. -/
theorem slots_adjoin : ∀ i < 50,
    position_base.getD (i + 1) 0 = position_base.getD i 0 + 2 ^ extra_bits.getD i 0 := by
  decide

theorem slotOf_lt {f : Nat} (hf : f < 2 ^ 21) :
    f < position_base.getD (slotOf f) 0 + 2 ^ extra_bits.getD (slotOf f) 0 := by
  obtain h | h := Nat.lt_or_eq_of_le (slotOf_le f).2
  · have hnot := Nat.findGreatest_is_greatest (P := fun i => position_base.getD i 0 ≤ f)
      (Nat.lt_add_one (slotOf f)) h
    rw [← slots_adjoin _ h]
    omega
  · rw [h]
    exact hf.trans (by decide)

theorem two_lt_slotOf {f : Nat} (hf : 3 ≤ f) : 2 < slotOf f :=
  Nat.le_findGreatest (P := fun i => position_base.getD i 0 ≤ f) (m := 3) (by decide) hf

theorem extra_le (i : Nat) : extra_bits.getD i 0 ≤ 17 := by
  by_cases hi : i < 51
  · have hall : ∀ i < 51, extra_bits.getD i 0 ≤ 17 := by decide
    exact hall i hi
  · rw [List.getD_eq_default _ _ (Nat.not_lt.mp hi)]
    exact Nat.zero_le 17

end slots

section copies

variable {win : Nat} {out : List Byte} {d n : Nat}

theorem pyIndex_of_lt {i : Nat} (h : i < win) : pyIndex win i = some i := by
  rw [pyIndex, if_pos (Int.natCast_nonneg i), if_pos (Int.ofNat_lt.mpr h), Int.toNat_natCast]

theorem putByte_window (h : out.length < win) (v : Byte) :
    putByte (Lz77.window 0xDC win out) out.length v = some (Lz77.window 0xDC win (out ++ [v])) := by
  rw [putByte, if_pos (by rw [Lz77.window_length h.le]; exact h), Lz77.window_set h]

/-- One step of a copy. -/
theorem copyRun_succ {i : Nat} (h : out.length < win) (hi : i < win) :
    copyRun (n + 1) out.length i (Lz77.window 0xDC win out) =
      copyRun n (out ++ [out.getD i 0xDC]).length ((i : Int) + 1)
        (Lz77.window 0xDC win (out ++ [out.getD i 0xDC])) := by
  rw [copyRun, Lz77.window_length h.le, pyIndex_of_lt hi]
  simp only [Option.bind_eq_bind, Option.bind_some]
  rw [Lz77.window_getElem? h.le hi]
  simp only [Option.bind_some]
  rw [putByte_window h]
  simp only [Option.bind_some, List.length_append, List.length_singleton]

theorem copyRun_back (hd : 0 < d) (hle : d ≤ out.length) (hfit : out.length + n ≤ win) :
    copyRun n out.length ((out.length : Int) - d) (Lz77.window 0xDC win out) =
      some (Lz77.window 0xDC win (Lz77.repeatBack 0xDC d n out)) := by
  induction n generalizing out with
  | zero => rfl
  | succ n ih =>
    have hi : (out.length : Int) - d = (out.length - d : Nat) := by omega
    have hback : out.getD (out.length - d) 0xDC = Lz77.back 0xDC out d := by
      rw [Lz77.back, if_pos hle]
    rw [hi, copyRun_succ (by omega) (by omega), hback, Lz77.repeatBack]
    have hnext : ((out.length - d : Nat) : Int) + 1 =
        ((out ++ [Lz77.back 0xDC out d]).length : Int) - d := by
      rw [List.length_append, List.length_singleton]
      omega
    rw [hnext]
    apply ih
    · rw [List.length_append]
      omega
    · rw [List.length_append, List.length_singleton]
      omega

/-- Before the beginning the window is still as it was filled. -/
theorem copyRun_before (hwin : d ≤ win) (hn : out.length + n ≤ d) :
    copyRun n out.length ((out.length : Int) + ((win : Int) - d)) (Lz77.window 0xDC win out) =
      some (Lz77.window 0xDC win (Lz77.repeatBack 0xDC d n out)) := by
  induction n generalizing out with
  | zero => rfl
  | succ n ih =>
    have hi : (out.length : Int) + ((win : Int) - d) = (out.length + (win - d) : Nat) := by omega
    have hback : out.getD (out.length + (win - d)) 0xDC = Lz77.back 0xDC out d := by
      rw [Lz77.back, if_neg (by omega), List.getD_eq_default _ _ (Nat.le_add_right _ _)]
    rw [hi, copyRun_succ (by omega) (by omega), hback, Lz77.repeatBack]
    have hnext : ((out.length + (win - d) : Nat) : Int) + 1 =
        ((out ++ [Lz77.back 0xDC out d]).length : Int) + ((win : Int) - d) := by
      rw [List.length_append, List.length_singleton]
      omega
    rw [hnext]
    apply ih
    rw [List.length_append, List.length_singleton]
    omega

theorem copyWindow_eq {s : LZXState} {r : Recent} {rest : Int} (hd : 0 < d)
    (hwin : d ≤ s.window_size) (hfit : out.length + n ≤ s.window_size) :
    copyWindow (put s (out, r) rest) d n =
      some (Lz77.window 0xDC s.window_size (Lz77.repeatBack 0xDC d n out)) := by
  change (if out.length ≥ d then
      copyRun n out.length ((out.length : Int) - d) (Lz77.window 0xDC s.window_size out)
    else if d - out.length < n then
      (copyRun (d - out.length) out.length ((out.length : Int) + ((s.window_size : Int) - d))
        (Lz77.window 0xDC s.window_size out)).bind
        fun w => copyRun (n - (d - out.length)) (out.length + (d - out.length)) 0 w
    else copyRun n out.length ((out.length : Int) + ((s.window_size : Int) - d))
      (Lz77.window 0xDC s.window_size out)) = _
  by_cases hle : d ≤ out.length
  · rw [if_pos hle, copyRun_back hd hle hfit]
  · rw [if_neg hle]
    by_cases hlt : d - out.length < n
    · have hsplit : n = d - out.length + (n - (d - out.length)) := by omega
      have hlen : (Lz77.repeatBack 0xDC d (d - out.length) out).length =
          out.length + (d - out.length) := Lz77.repeatBack_length _ _
      have hend : out.length + (d - out.length) =
          (Lz77.repeatBack 0xDC d (d - out.length) out).length := hlen.symm
      have hzero : (0 : Int) = ((Lz77.repeatBack 0xDC d (d - out.length) out).length : Int) - d := by
        omega
      rw [if_pos hlt, copyRun_before hwin (by omega), Option.bind_some, hend, hzero,
        copyRun_back hd (by omega) (by omega), ← Lz77.repeatBack_add, ← hsplit]
    · rw [if_neg hlt, copyRun_before hwin (by omega)]

end copies

variable {c : Code} {s : LZXState} {st : List Byte × Recent} {rest : Int}

theorem Recent.Inside.turn {r : Recent} {o : Offset} {win : Nat} (h : r.Inside win)
    (ho : o.Valid c win) :
    (0 < (o.turn r).1 ∧ (o.turn r).1 ≤ win) ∧ (o.turn r).2.Inside win := by
  obtain ⟨h0, h1, h2⟩ := h
  cases o with
  | r0 => exact ⟨h0, h0, h1, h2⟩
  | r1 => exact ⟨h1, h1, h0, h2⟩
  | r2 => exact ⟨h2, h2, h1, h0⟩
  | new d =>
    have hd : 0 < d ∧ d + 2 < win := ho.1
    have hin : 0 < d ∧ d ≤ win := by omega
    exact ⟨hin, hin, h0, h1⟩

theorem Token.apply_length (t : Token) (st : List Byte × Recent) :
    (t.apply st).1.length = st.1.length + t.size := by
  cases t with
  | literal b => rw [apply, size, List.length_append, List.length_singleton]
  | copy o len => rw [apply, size, Lz77.repeatBack_length]

theorem Token.apply_inside {t : Token} {win : Nat} (h : st.2.Inside win) (ht : t.Valid c win) :
    (t.apply st).2.Inside win := by
  cases t with
  | literal b => exact h
  | copy o len => exact (h.turn ht.2.2.2.2).2

theorem Offset.slot_le (o : Offset) : o.slot ≤ 50 := by
  cases o with
  | r0 => exact Nat.zero_le 50
  | r1 => exact Nat.one_le_ofNat
  | r2 => exact Nat.le_of_ble_eq_true rfl
  | new d => exact (slotOf_le (d + 2)).2

theorem Offset.footer_lt {o : Offset} {win : Nat} (ho : o.Valid c win) (hwin : win ≤ 2 ^ 21) :
    o.footer < 2 ^ o.extra := by
  cases o with
  | new d =>
    have hd : 0 < d ∧ d + 2 < win := ho.1
    have hlt := slotOf_lt (f := d + 2) (by omega)
    have hle := (slotOf_le (d + 2)).1
    change d + 2 - position_base.getD (slotOf (d + 2)) 0 < 2 ^ extra_bits.getD (slotOf (d + 2)) 0
    omega
  | _ => exact Nat.two_pow_pos _

theorem offsetBits_reads {o : Offset} {win : Nat} (hc : c.Valid) (hl : Loaded c s)
    (ho : o.Valid c win) (hwin : win ≤ 2 ^ 21) :
    Reads (offsetBits (put s st rest) o.extra) (o.word c) o.footer := by
  have hlt := o.footer_lt ho hwin
  have hextra : o.extra ≤ 17 := extra_le o.slot
  have htype : (put s st rest).block_type = BLOCKTYPE_ALIGNED ↔ c.aligned = true := by
    change s.block_type = BLOCKTYPE_ALIGNED ↔ _
    rw [hl.block_type]
    cases c.aligned <;> simp [BLOCKTYPE_ALIGNED, BLOCKTYPE_VERBATIM]
  rw [offsetBits, Offset.word]
  by_cases hal : c.aligned = true ∧ o.extra ≥ 3
  · obtain ⟨huse, hle⟩ := hc.align hal.1
    obtain ⟨hlen, hleads⟩ := hl.align hal.1
    have hmod : o.footer % 8 < 8 := Nat.mod_lt _ (by decide)
    have hread : Reads (readHuffSymAligntree (put s st rest)) (wordOf c.align 8 (o.footer % 8))
        (o.footer % 8) := by
      change Reads (readHuffSym s.aligntree_table s.aligntree_len 8 7 8) _ _
      rw [hlen]
      exact readHuffSym_reads (by decide) huse hleads hmod (ho.2 hal) (hle _ hmod) (by decide)
    have hdiv : o.footer / 8 < 2 ^ (o.extra - 3) := by
      have hpow : 2 ^ o.extra = 2 ^ (o.extra - 3) * 8 := by
        rw [show (8 : Nat) = 2 ^ 3 from rfl, ← Nat.pow_add]
        congr 1
        omega
      omega
    have hsum : (o.footer / 8) <<< 3 + o.footer % 8 = o.footer := by
      rw [Nat.shiftLeft_eq]
      omega
    rw [if_pos ⟨htype.mpr hal.1, hal.2⟩, if_pos hal]
    refine (readBits_reads (by omega) hdiv).bind ?_
    have h := hread.bind_pure fun a => (o.footer / 8) <<< 3 + a
    rw [hsum] at h
    exact h
  · rw [if_neg (fun h => hal ⟨htype.mp h.1, h.2⟩), if_neg hal]
    exact readBits_reads hextra hlt

theorem matchOffset_reads {o : Offset} {win : Nat} (hc : c.Valid) (hl : Loaded c s)
    (ho : o.Valid c win) (hwin : win ≤ 2 ^ 21) :
    Reads (matchOffset (put s st rest) o.slot) (o.word c)
      ((o.turn st.2).1, put s (st.1, (o.turn st.2).2) rest) := by
  have hempty : o.extra = 0 → o.word c = [] := by
    intro h
    rw [Offset.word, if_neg (by rw [h]; omega), h]
    rfl
  rw [matchOffset]
  cases o with
  | r0 =>
    rw [hempty rfl]
    exact Reads.pure _
  | r1 =>
    rw [hempty rfl]
    exact Reads.pure _
  | r2 =>
    rw [hempty rfl]
    exact Reads.pure _
  | new d =>
    have hd : 0 < d ∧ d + 2 < win := ho.1
    have hslot : 2 < (Offset.new d).slot := two_lt_slotOf (f := d + 2) (by omega)
    have hle := slotOf_le (d + 2)
    have hfooter : Reads (offsetBits (put s st rest) (Offset.new d).extra)
        ((Offset.new d).word c) (Offset.new d).footer := offsetBits_reads hc hl ho hwin
    have hextra : extra_bits[(Offset.new d).slot]? = some (Offset.new d).extra :=
      getElem?_getD (Nat.lt_succ_of_le hle.2)
    have hbase : position_base[(Offset.new d).slot]? =
        some (position_base.getD (slotOf (d + 2)) 0) := getElem?_getD (Nat.lt_succ_of_le hle.2)
    have hoff : position_base.getD (slotOf (d + 2)) 0 + (Offset.new d).footer - 2 = d := by
      change position_base.getD (slotOf (d + 2)) 0 +
        (d + 2 - position_base.getD (slotOf (d + 2)) 0) - 2 = d
      omega
    rw [if_pos hslot]
    refine lift_reads hextra ?_
    rw [← List.append_nil (Offset.word c (Offset.new d))]
    refine hfooter.bind (lift_reads hbase ?_)
    simp only [hoff]
    exact Reads.pure _

theorem matchLength_reads {h len slot : Nat} (hc : c.Valid) (hl : Loaded c s) (h2 : 2 ≤ len)
    (h257 : len ≤ 257) (hh : h = min 7 (len - 2)) (hsym : 9 ≤ len → 0 < c.len.getD (len - 9) 0) :
    Reads (matchLength (put s st rest) (slot * 8 + h))
      (if len < 9 then [] else wordOf c.len 249 (len - 9)) len := by
  have hand : (slot * 8 + h) &&& NUM_PRIMARY_LENGTHS = h := by
    have := Nat.and_two_pow_sub_one_eq_mod (slot * 8 + h) 3
    change (slot * 8 + h) &&& 7 = h
    change (slot * 8 + h) &&& 7 = (slot * 8 + h) % 8 at this
    omega
  rw [matchLength]
  simp only [hand]
  by_cases hlt : len < 9
  · have hne : ¬ h = NUM_PRIMARY_LENGTHS := by
      change ¬ h = 7
      omega
    have hlen : h + MIN_MATCH = len := by
      change h + 2 = len
      omega
    rw [if_neg hne, if_pos hlt, hlen]
    exact Reads.pure _
  · have heq : h = NUM_PRIMARY_LENGTHS := by
      change h = 7
      omega
    have hlen : h + (len - 9) + MIN_MATCH = len := by
      change h + (len - 9) + 2 = len
      omega
    have hsym' : len - 9 < 249 := by omega
    have hread : Reads (readHuffSymLentree (put s st rest)) (wordOf c.len 249 (len - 9))
        (len - 9) := by
      change Reads (readHuffSym s.lentree_table s.lentree_len 249 10 16) _ _
      rw [hl.len.1]
      exact readHuffSym_reads (by decide) hc.len.1 hl.len.2 hsym' (hsym (by omega))
        (hc.len.2 _ hsym') le_rfl
    rw [if_pos heq, if_neg hlt]
    have hm := hread.bind_pure fun footer => h + footer + MIN_MATCH
    rw [hlen] at hm
    exact hm

theorem Token.symbol_lt (t : Token) : t.symbol < 664 := by
  cases t with
  | literal b =>
    have := b.isLt
    rw [symbol]
    omega
  | copy o len =>
    have := o.slot_le
    rw [symbol]
    omega

/-- One round of the decoder is one token. -/
theorem decompressElement_reads {t : Token} (hc : c.Valid) (hl : Loaded c s)
    (ht : t.Valid c s.window_size) (hst : st.2.Inside s.window_size)
    (hwin : s.window_size ≤ 2 ^ 21) (hfit : st.1.length + t.size ≤ s.window_size) :
    Reads (decompressElement (put s st rest)) (t.word c)
      (put s (t.apply st) (rest - t.size)) := by
  have hmain : Reads (readHuffSymMaintree (put s st rest)) (wordOf c.main 664 t.symbol)
      t.symbol := by
    change Reads (readHuffSym s.maintree_table s.maintree_len 664 11 16) _ _
    rw [hl.main.1]
    exact readHuffSym_reads (by decide) hc.main.1 hl.main.2 t.symbol_lt ht.1
      (hc.main.2 _ t.symbol_lt) le_rfl
  rw [decompressElement]
  cases t with
  | literal b =>
    change st.1.length + 1 ≤ s.window_size at hfit
    have hput : putByte (put s st rest).window (put s st rest).window_posn
        (BitVec.ofNat 8 b.toNat) = some (Lz77.window 0xDC s.window_size (st.1 ++ [b])) := by
      rw [BitVec.ofNat_toNat, BitVec.setWidth_eq]
      exact putByte_window (by omega) b
    rw [Token.word, ← List.append_nil (wordOf _ _ _)]
    refine hmain.bind ?_
    rw [if_pos (show (Token.literal b).symbol < NUM_CHARS from b.isLt)]
    refine lift_reads hput ?_
    have hlen : (put s st rest).window_posn + 1 = (st.1 ++ [b]).length := by
      rw [List.length_append]
      rfl
    rw [hlen]
    exact Reads.pure _
  | copy o len =>
    obtain ⟨-, h2, h257, hsym, ho⟩ := ht
    change st.1.length + len ≤ s.window_size at hfit
    have hnot : ¬ (Token.copy o len).symbol < NUM_CHARS := by
      change ¬ 256 + (o.slot * 8 + min 7 (len - 2)) < 256
      omega
    have hsub : (Token.copy o len).symbol - NUM_CHARS = o.slot * 8 + min 7 (len - 2) :=
      Nat.add_sub_cancel_left _ _
    have hslot : (o.slot * 8 + min 7 (len - 2)) >>> 3 = o.slot := by
      rw [Nat.shiftRight_eq_div_pow]
      omega
    obtain ⟨⟨hdpos, hdle⟩, -⟩ := hst.turn ho
    rw [Token.word]
    refine hmain.bind ?_
    rw [if_neg hnot]
    simp only [hsub, hslot]
    refine (matchLength_reads hc hl h2 h257 rfl hsym).bind ?_
    rw [← List.append_nil (Offset.word c o)]
    refine (matchOffset_reads hc hl ho hwin).bind ?_
    have hcopy : copyMatch (put s (st.1, (o.turn st.2).2) rest) (o.turn st.2).1 len =
        some (put s ((Token.copy o len).apply st) (rest - len)) := by
      rw [copyMatch, copyWindow_eq hdpos hdle hfit]
      have hlen : (Lz77.repeatBack 0xDC (o.turn st.2).1 len st.1).length = st.1.length + len :=
        Lz77.repeatBack_length _ _
      simp only [put, Token.apply, hlen]
      rfl
    change Reads (StateT.lift (copyMatch _ _ _)) [] _
    rw [hcopy]
    exact Reads.pure _

/-- Every token takes one byte at least. -/
theorem Token.size_pos {t : Token} {win : Nat} (ht : t.Valid c win) : 0 < t.size := by
  cases t with
  | literal b => exact Nat.zero_lt_one
  | copy o len =>
    have := ht.2.1
    exact Nat.lt_of_lt_of_le Nat.zero_lt_two this

/-- A block of tokens is decompressed to what the tokens say. -/
theorem decompressRounds_reads {tokens : List Token} {rounds : Nat} (hc : c.Valid)
    (hl : Loaded c s) (ht : ∀ t ∈ tokens, t.Valid c s.window_size)
    (hst : st.2.Inside s.window_size) (hwin : s.window_size ≤ 2 ^ 21)
    (hfit : st.1.length + size tokens ≤ s.window_size) (hrounds : size tokens ≤ rounds) :
    Reads (decompressRounds rounds (put s st (size tokens))) (tokens.flatMap (Token.word c))
      (put s (expand tokens st) 0) := by
  induction tokens generalizing st rounds with
  | nil =>
    cases rounds with
    | zero => exact Reads.pure _
    | succ rounds =>
      rw [decompressRounds, if_neg (by exact Int.lt_irrefl 0)]
      exact Reads.pure _
  | cons t tokens ih =>
    have htok := ht t List.mem_cons_self
    have hpos := t.size_pos htok
    have hsize : size (t :: tokens) = t.size + size tokens := by
      rw [size, List.map_cons, List.sum_cons, size]
    cases rounds with
    | zero => omega
    | succ rounds =>
      have hstep : Reads (decompressElement (put s st (size (t :: tokens)))) (t.word c)
          (put s (t.apply st) ((size (t :: tokens) : Nat) - (t.size : Int))) :=
        decompressElement_reads hc hl htok hst hwin (by omega)
      have hsub : ((size (t :: tokens) : Nat) : Int) - t.size = size tokens := by omega
      rw [hsub] at hstep
      have hrest : Reads (decompressRounds rounds (put s (t.apply st) (size tokens)))
          (tokens.flatMap (Token.word c)) (put s (expand tokens (t.apply st)) 0) :=
        ih (fun x hx => ht x (List.mem_cons_of_mem t hx)) (Token.apply_inside hst htok)
          (by rw [Token.apply_length]; omega) (by omega)
      have hgo : (put s st (size (t :: tokens))).block_remaining > 0 := by
        change ((size (t :: tokens) : Nat) : Int) > 0
        omega
      rw [decompressRounds, if_pos hgo, List.flatMap_cons]
      exact hstep.bind hrest

end AipcOs.LzxTokens
