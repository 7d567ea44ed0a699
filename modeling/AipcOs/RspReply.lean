import AipcOs.RspTransfer

/-! Every reply is a sequence of complete packets. A handler appends a plain body of bounded
length; out_begin and out_finish turn such a body into one packet. -/
namespace AipcOs.Rsp
open ByteMemory HexText RspWire Step TraceLog

/-- `o'` is `o` with at most `n` more characters, none of them '#' or '$', and none lost. -/
def Puts (n : Nat) (o o' : Out) : Prop := ∃ body, Plain body ∧ body.length ≤ n ∧ o' = o.put body

namespace Puts
variable {a b : Nat} {o p q : Out}

theorem refl (o : Out) : Puts 0 o o := ⟨[], plain_nil, le_rfl, by simp⟩

theorem trans (h : Puts a o p) (k : Puts b p q) : Puts (a + b) o q := by
  obtain ⟨x, hx, hxa, rfl⟩ := h
  obtain ⟨y, hy, hyb, rfl⟩ := k
  refine ⟨x ++ y, hx.append hy, ?_, by simp⟩
  rw [List.length_append]
  omega

theorem mono (h : Puts a o p) (hab : a ≤ b) : Puts b o p := by
  obtain ⟨x, hx, hxa, rfl⟩ := h
  exact ⟨x, hx, hxa.trans hab, rfl⟩

theorem length_le (h : Puts a o p) : p.buf.length ≤ o.buf.length + a := by
  obtain ⟨x, -, hxa, rfl⟩ := h
  rw [Out.put_buf, List.length_append]
  omega

end Puts

section primitives
variable {o : Out}

theorem outCh_puts (c : Byte) (hc : c.toNat ≠ 0x23 ∧ c.toNat ≠ 0x24)
    (h : o.buf.length + 1 ≤ OUT_SIZE) : Puts 1 o (outCh c o) :=
  ⟨[c], plain_nil.cons hc, le_rfl, outCh_put c o h⟩

theorem outStr_puts (s : List Byte) (hs : Plain s) (h : o.buf.length + s.length ≤ OUT_SIZE) :
    Puts s.length o (outStr s o) :=
  ⟨s, hs, le_rfl, outStr_put s o h⟩

theorem outBytes_puts (bs : List Byte) (h : o.buf.length + 2 * bs.length ≤ OUT_SIZE) :
    Puts (2 * bs.length) o (outBytes bs o) :=
  ⟨encode bs, plain_encode bs, (encode_length bs).le, outBytes_put bs o h⟩

theorem outByte_puts (b : Byte) (h : o.buf.length + 2 ≤ OUT_SIZE) : Puts 2 o (outByte b o) :=
  outBytes_puts [b] h

theorem monStr_eq (s : List Byte) (o : Out) : monStr s o = outBytes s o := by
  induction s generalizing o with
  | nil => rfl
  | cons c cs ih => exact ih (outByte c o)

theorem monStr_puts (s : List Byte) (h : o.buf.length + 2 * s.length ≤ OUT_SIZE) :
    Puts (2 * s.length) o (monStr s o) := by
  rw [monStr_eq]
  exact outBytes_puts s h

theorem monWordLoop_puts (v : Word) (k : Nat) (o : Out) (h : o.buf.length + 2 * k ≤ OUT_SIZE) :
    Puts (2 * k) o (monWordLoop v k o) := by
  induction k generalizing o with
  | zero => exact Puts.refl o
  | succ k ih =>
    have hc : Puts 2 o (monCh (hexdigit ((v >>> (k * 4)) &&& 0xF)) o) := outByte_puts _ (by omega)
    have hlen := hc.length_le
    exact (hc.trans (ih _ (by omega))).mono (by omega)

theorem monWord_puts (v : Word) (h : o.buf.length + 20 ≤ OUT_SIZE) : Puts 20 o (monWord v o) := by
  have hx : (ascii "0x").length = 2 := ascii_length "0x"
  have hs := monStr_puts (ascii "0x") (o := o) (by omega)
  have hlen := hs.length_le
  exact (hs.trans (monWordLoop_puts v 8 _ (by omega))).mono (by omega)

theorem decDigits_length (v : Nat) (started : Bool) (ps : List Nat) :
    (decDigits v started ps).length ≤ ps.length := by
  induction ps generalizing v started with
  | nil => rfl
  | cons p ps ih =>
    simp only [decDigits]
    split
    · exact Nat.succ_le_succ (ih _ _)
    · exact (ih _ _).trans (Nat.le_succ _)

theorem monDec_puts (v : Nat) (h : o.buf.length + 20 ≤ OUT_SIZE) : Puts 20 o (monDec v o) := by
  have hd : (decDigits v false pow10).length ≤ 10 := decDigits_length v false pow10
  exact (monStr_puts _ (by omega)).mono (by omega)

theorem hexdigit_plain (v : Word) :
    (hexdigit (v &&& 0xF)).toNat ≠ 0x23 ∧ (hexdigit (v &&& 0xF)).toNat ≠ 0x24 := by
  have hv : (v &&& 0xF).toNat ≤ 15 := by
    rw [BitVec.toNat_and]
    exact Nat.and_le_right
  have heq : v &&& 0xF = BitVec.ofNat 32 (v &&& 0xF).toNat := by simp
  rw [heq, hexdigit_eq _ (by omega)]
  exact digit_range _ (by omega)

theorem outHexLoop_puts (v : Word) (k : Nat) (o : Out) (h : o.buf.length + (k + 1) ≤ OUT_SIZE) :
    Puts (k + 1) o (outHexLoop v k o) := by
  induction k generalizing o with
  | zero => exact outCh_puts _ (hexdigit_plain v) h
  | succ k ih =>
    have hc := outCh_puts (o := o) _ (hexdigit_plain (v >>> (4 * (k + 1)))) (by omega)
    have hlen := hc.length_le
    exact (hc.trans (ih _ (by omega))).mono (by omega)

theorem hexShift_le (v : Word) (k : Nat) : hexShift v k ≤ k := by
  induction k with
  | zero => rfl
  | succ k ih =>
    rw [hexShift]
    split
    · exact ih.trans (Nat.le_succ k)
    · exact le_rfl

theorem outHex_puts (v : Word) (h : o.buf.length + 8 ≤ OUT_SIZE) : Puts 8 o (outHex v o) := by
  have hk := hexShift_le v 7
  exact (outHexLoop_puts v _ o (by omega)).mono (by omega)

theorem outWord_puts (v : Word) (h : o.buf.length + 8 ≤ OUT_SIZE) : Puts 8 o (outWord v o) :=
  outBytes_puts [v.extractLsb' 0 8, v.extractLsb' 8 8, v.extractLsb' 16 8, v.extractLsb' 24 8] h

theorem outWords_puts (vs : List Word) (o : Out) (h : o.buf.length + 8 * vs.length ≤ OUT_SIZE) :
    Puts (8 * vs.length) o (outWords vs o) := by
  induction vs generalizing o with
  | nil => exact Puts.refl o
  | cons v vs ih =>
    simp only [List.length_cons] at h ⊢
    have hw := outWord_puts v (o := o) (by omega)
    have hlen := hw.length_le
    exact (hw.trans (ih _ (by omega))).mono (by omega)

end primitives

def plainChar (c : Char) : Bool := c.toNat % 256 != 0x23 && c.toNat % 256 != 0x24

theorem plain_ascii (s : String) (l : List Char) (h : String.ofList l = s)
    (hl : l.all plainChar = true) : Plain (ascii s) := by
  subst h
  intro c hc
  rw [ascii, String.toList_ofList] at hc
  obtain ⟨x, hx, rfl⟩ := List.mem_map.mp hc
  have hp := List.all_eq_true.mp hl x hx
  simpa [plainChar] using hp

theorem outStr_ascii_puts {o : Out} (s : String) (n : Nat) (hp : Plain (ascii s))
    (hn : s.length ≤ n) (h : o.buf.length + n ≤ OUT_SIZE) : Puts n o (outStr (ascii s) o) := by
  have hlen := ascii_length s
  exact (outStr_puts _ hp (by omega)).mono (by omega)

theorem plain_flatMap (ss : List String) (h : ∀ s ∈ ss, Plain (ascii s)) :
    Plain (ss.flatMap ascii) := by
  intro c hc
  obtain ⟨s, hs, hc⟩ := List.mem_flatMap.mp hc
  exact h s hs c hc

theorem targetXml_plain : Plain targetXml := by
  apply plain_flatMap
  simp only [List.forall_mem_cons, List.not_mem_nil, false_implies, implies_true, and_true]
  and_intros <;> exact plain_ascii _ _ rfl (by decide)

theorem xferReply_puts (off len : Word) (o : Out) (h : o.buf.length ≤ 2) :
    Puts PACKET_SIZE o (xferReply off len o) := by
  have hsize : OUT_SIZE = PACKET_SIZE + 16 := rfl
  have hpack : PACKET_SIZE = 8192 := rfl
  simp only [xferReply]
  split
  · exact outStr_ascii_puts "l" _ (plain_ascii _ _ rfl (by decide)) (by decide) (by omega)
  · generalize hn : min (min (targetXml.length - off.toNat) len.toNat) (PACKET_SIZE - 16) = n
    have hle : n ≤ PACKET_SIZE - 16 := by
      rw [← hn]
      exact min_le_right _ _
    have hch : Puts 1 o (outCh (if off.toNat + n < targetXml.length then 0x6D else 0x6C) o) := by
      apply outCh_puts _ _ (by omega)
      split <;> decide
    have hlen := hch.length_le
    have htake := List.length_take_le n (targetXml.drop off.toNat)
    have hpart : Plain ((targetXml.drop off.toNat).take n) := fun c hc =>
      targetXml_plain c (List.mem_of_mem_drop (List.mem_of_mem_take hc))
    exact (hch.trans (outStr_puts _ hpart (by omega))).mono (by omega)

theorem handleQuery_puts (p : List Byte) (o : Out) (h : o.buf.length ≤ 2) :
    Puts PACKET_SIZE o (handleQuery p o) := by
  have hsize : OUT_SIZE = 8208 := rfl
  have hpack : PACKET_SIZE = 8192 := rfl
  unfold handleQuery
  split
  · have h1 := outStr_ascii_puts (o := o) "PacketSize=" 11 (plain_ascii _ _ rfl (by decide))
      (by decide) (by omega)
    have l1 := h1.length_le
    have h2 := outHex_puts (BitVec.ofNat 32 PACKET_SIZE) (o := outStr (ascii "PacketSize=") o)
      (by omega)
    have l2 := h2.length_le
    have h3 := outStr_ascii_puts (o := outHex (BitVec.ofNat 32 PACKET_SIZE)
      (outStr (ascii "PacketSize=") o)) ";qXfer:features:read+;vContSupported+" 40
      (plain_ascii _ _ rfl (by decide)) (by decide) (by omega)
    exact ((h1.trans h2).trans h3).mono (by omega)
  · split
    · exact xferReply_puts _ _ o h
    · split_ifs
      · exact outStr_ascii_puts "1" _ (plain_ascii _ _ rfl (by decide)) (by decide) (by omega)
      · exact outStr_ascii_puts "QC1" _ (plain_ascii _ _ rfl (by decide)) (by decide) (by omega)
      · exact outStr_ascii_puts "m1" _ (plain_ascii _ _ rfl (by decide)) (by decide) (by omega)
      · exact outStr_ascii_puts "l" _ (plain_ascii _ _ rfl (by decide)) (by decide) (by omega)
      · exact (Puts.refl o).mono (Nat.zero_le _)

theorem readMemory_puts (m : Mem) (p : List Byte) (o : Out) (h : o.buf.length ≤ 2) :
    Puts PACKET_SIZE o (readMemory m p o) := by
  have hmax : (parseRead p).2 ≤ 4096 := min_le_right _ _
  have hpack : PACKET_SIZE = 8192 := rfl
  refine ⟨_, plain_encode _, ?_, readMemory_put m p o h⟩
  rw [encode_length, readBytes_length]
  omega

def slots (g : ArmRegs) : List Word := List.ofFn g.r ++ [g.sp, g.lr, g.pc, g.cpsr]

theorem slots_length (g : ArmRegs) : (slots g).length = 17 := by simp [slots]

theorem readRegs_slots (g : ArmRegs) (o : Out) : readRegs g o = outWords (slots g) o := by
  rw [readRegs, slots]
  generalize List.ofFn g.r = vs
  induction vs generalizing o with
  | nil => rfl
  | cons v vs ih => exact ih (outWord v o)

theorem readRegs_puts (g : ArmRegs) (o : Out) (h : o.buf.length ≤ 2) :
    Puts PACKET_SIZE o (readRegs g o) := by
  have hsize : OUT_SIZE = 8208 := rfl
  have hpack : PACKET_SIZE = 8192 := rfl
  have hlen := slots_length g
  rw [readRegs_slots]
  exact (outWords_puts _ o (by omega)).mono (by omega)

theorem handleBreakpoint_puts (set : Bool) (p : List Byte) (s : Stub) (h : s.out.buf.length ≤ 2) :
    Puts PACKET_SIZE s.out (handleBreakpoint set p s).out := by
  have hsize : OUT_SIZE = 8208 := rfl
  have hpack : PACKET_SIZE = 8192 := rfl
  have hok : ∀ ok : Bool,
      Puts PACKET_SIZE s.out (outStr (ascii (if ok then "OK" else "E01")) s.out) := by
    intro ok
    cases ok with
    | true => exact outStr_ascii_puts "OK" _ (plain_ascii _ _ rfl (by decide)) (by decide) (by omega)
    | false =>
      exact outStr_ascii_puts "E01" _ (plain_ascii _ _ rfl (by decide)) (by decide) (by omega)
  unfold handleBreakpoint
  split
  · exact hok _
  · exact (Puts.refl s.out).mono (Nat.zero_le _)

/-- 'S' and a signal. -/
theorem stop_puts (sig : Byte) (o : Out) (h : o.buf.length ≤ 2) :
    Puts PACKET_SIZE o (outByte sig (outCh 0x53 o)) := by
  have hsize : OUT_SIZE = 8208 := rfl
  have hpack : PACKET_SIZE = 8192 := rfl
  have hc := outCh_puts (o := o) 0x53 (by decide) (by omega)
  have hlen := hc.length_le
  exact (hc.trans (outByte_puts sig (by omega))).mono (by omega)

theorem puts_ite {n : Nat} {o : Out} {c : Prop} [Decidable c] {x y : Stub} (hx : Puts n o x.out)
    (hy : Puts n o y.out) : Puts n o (if c then x else y).out := by
  split
  · exact hx
  · exact hy

/-- Every case of the switch. -/
theorem handle_puts (c : Byte) (p : List Byte) (s : Stub) (h : s.out.buf.length ≤ 2) :
    Puts PACKET_SIZE s.out (handle c p s).out := by
  have hsize : OUT_SIZE = 8208 := rfl
  have hpack : PACKET_SIZE = 8192 := rfl
  have hok : Puts PACKET_SIZE s.out (outStr (ascii "OK") s.out) :=
    outStr_ascii_puts "OK" _ (plain_ascii _ _ rfl (by decide)) (by decide) (by omega)
  have hvcont : Puts PACKET_SIZE s.out (outStr (ascii "vCont;c;C;s;S") s.out) :=
    outStr_ascii_puts _ _ (plain_ascii _ _ rfl (by decide)) (by decide) (by omega)
  have hnone : Puts PACKET_SIZE s.out s.out := (Puts.refl s.out).mono (Nat.zero_le _)
  unfold handle
  apply puts_ite
  · dsimp only
    exact stop_puts _ s.out h
  apply puts_ite
  · dsimp only
    exact readRegs_puts s.regs s.out h
  apply puts_ite
  · dsimp only
    exact hok
  apply puts_ite
  · dsimp only
    exact readMemory_puts s.mem p s.out h
  apply puts_ite
  · dsimp only
    exact hok
  apply puts_ite
  · dsimp only
    exact hok
  apply puts_ite
  · dsimp only
    exact handleQuery_puts _ s.out h
  apply puts_ite
  · apply puts_ite
    · dsimp only
      exact hvcont
    · exact hnone
  apply puts_ite
  · exact handleBreakpoint_puts _ p s h
  apply puts_ite
  · dsimp only
    exact hok
  · exact hnone

/-- Characters that the first `n` words of an md32 take at most: 22 a word, 22 for the address of
each line and 2 for each line end. -/
def md32Cost (count n : Nat) : Nat :=
  22 * n + 22 * ((n + 3) / 4) + 2 * (n / 4) + if n = count then 2 else 0

theorem md32Word_puts (m : Mem) (addr : Word) (count i n : Nat) (o : Out)
    (hi : i < count) (hn : md32Cost count i + n = md32Cost count (i + 1))
    (h : o.buf.length + n ≤ OUT_SIZE) : Puts n o (md32Word m addr count i o) := by
  have hne : i ≠ count := by omega
  simp only [md32Cost, hne, if_false] at hn
  have hhead : ∀ at_ : Word, i % 4 = 0 → Puts 22 o (monCh 0x3A (monWord at_ o)) := by
    intro at_ h0
    have hw := monWord_puts at_ (o := o) (by omega)
    have hlen := hw.length_le
    exact hw.trans (outByte_puts 0x3A (by omega))
  have hword : ∀ (v : Word) (p : Out), p.buf.length + 22 ≤ OUT_SIZE →
      Puts 22 p (monWord v (monCh 0x20 p)) := by
    intro v p hp
    have hc : Puts 2 p (monCh 0x20 p) := outByte_puts 0x20 (by omega)
    have hlen := hc.length_le
    exact hc.trans (monWord_puts v (by omega))
  have hline : ∀ (k : Nat) (p : Out), Puts k o p → (i % 4 = 3 ∨ i + 1 = count → k + 2 ≤ n) →
      k ≤ n → Puts n o (if i % 4 = 3 ∨ i + 1 = count then monCh 0x0A p else p) := by
    intro k p hp hk hkn
    have hlen := hp.length_le
    split
    · rename_i hend
      have := hk hend
      exact (hp.trans (outByte_puts 0x0A (by omega))).mono (by omega)
    · exact hp.mono hkn
  simp only [md32Word]
  by_cases h0 : i % 4 = 0
  · have hfirst := hhead (addr + BitVec.ofNat 32 (i * 4)) h0
    have hlen := hfirst.length_le
    rw [if_pos h0]
    apply hline 44 _ (hfirst.trans (hword _ _ (by omega)))
    · intro hend
      split_ifs at hn <;> omega
    · split_ifs at hn <;> omega
  · rw [if_neg h0]
    apply hline 22 _ (hword _ _ _)
    · intro hend
      split_ifs at hn <;> omega
    · split_ifs at hn <;> omega
    · split_ifs at hn <;> omega

theorem md32_puts (m : Mem) (addr : Word) (count n : Nat) (o : Out) (hn : n ≤ count)
    (h : o.buf.length + md32Cost count n ≤ OUT_SIZE) :
    Puts (md32Cost count n) o ((List.range n).foldl (fun o i => md32Word m addr count i o) o) := by
  induction n with
  | zero => exact (Puts.refl o).mono (Nat.zero_le _)
  | succ n ih =>
    obtain ⟨k, hk⟩ : ∃ k, md32Cost count n + k = md32Cost count (n + 1) := by
      apply Nat.le.dest
      simp only [md32Cost]
      split_ifs <;> omega
    have hprev := ih (by omega) (by omega)
    have hlen := hprev.length_le
    rw [List.range_succ, List.foldl_append]
    exact (hprev.trans (md32Word_puts m addr count n k _ hn hk (by omega))).mono hk.le

theorem md32Loop_puts (m : Mem) (addr : Word) (count : Nat) (o : Out) (hc : count ≤ MD32_MAX)
    (h : o.buf.length ≤ 100) : Puts 7200 o (md32Loop m addr count o) := by
  have hmax : MD32_MAX = 256 := rfl
  have hsize : OUT_SIZE = 8208 := rfl
  have hcost : md32Cost count count ≤ 7200 := by
    simp only [md32Cost, if_true]
    omega
  exact (md32_puts m addr count count o le_rfl (by omega)).mono hcost

def Packets (ack : Bool) (ts : List (List Byte)) : Prop :=
  ∃ b bs, ts = (ackText ack ++ packet b) :: bs.map packet ∧
    ∀ x ∈ b :: bs, Plain x ∧ x.length ≤ PACKET_SIZE

/-- `o'` has sent these packets more, with no character dropped and no stray word store. -/
def Sends (ack : Bool) (o o' : Out) : Prop :=
  ∃ ts, o'.sent = o.sent ++ ts ∧ Packets ack ts ∧ o'.dropped = o.dropped ∧ o'.badPair = o.badPair

theorem sends_one (ack : Bool) (o o' : Out) (h : Puts PACKET_SIZE (outBeginAck ack o) o') :
    Sends ack o (outFinish o') := by
  obtain ⟨body, hplain, hlen, rfl⟩ := h
  rw [outFinish_put ack body o hlen]
  refine ⟨[ackText ack ++ packet body], rfl, ⟨body, [], rfl, ?_⟩, rfl, rfl⟩
  intro x hx
  obtain rfl : x = body := by simpa using hx
  exact ⟨hplain, hlen⟩

theorem Sends.trans {ack : Bool} {o p q : Out} (h : Sends ack o p) (k : Sends false p q) :
    Sends ack o q := by
  obtain ⟨ts, hts, ⟨b, bs, rfl, hb⟩, hd, hp⟩ := h
  obtain ⟨us, hus, ⟨c, cs, rfl, hc⟩, hd', hp'⟩ := k
  refine ⟨_, ?_, ⟨b, bs ++ c :: cs, rfl, ?_⟩, hd'.trans hd, hp'.trans hp⟩
  · rw [hus, hts]
    simp
  · intro x hx
    rw [← List.cons_append, List.mem_append] at hx
    obtain hx | hx := hx
    · exact hb x hx
    · exact hc x hx

theorem sendOutput_sends (text : List Byte) (ack : Bool) (o : Out)
    (h : text.length ≤ MONITOR_CHUNK) : Sends ack o (sendOutput text ack o) := by
  have hbegin := outBeginAck_length ack o
  have hsize : OUT_SIZE = 8208 := rfl
  have hpack : PACKET_SIZE = 8192 := rfl
  have hchunk : MONITOR_CHUNK = 4092 := rfl
  have hc := outCh_puts (o := outBeginAck ack o) 0x4F (by decide) (by omega)
  have hlen := hc.length_le
  exact sends_one ack o _ ((hc.trans (outBytes_puts text (by omega))).mono (by omega))

theorem sendText_sends (text : List Byte) (ack : Bool) (o : Out) (h : text.length ≤ 100) :
    Sends ack o (sendText text ack o) := by
  have hbegin := outBeginAck_length ack o
  have hsize : OUT_SIZE = 8208 := rfl
  have hpack : PACKET_SIZE = 8192 := rfl
  exact sends_one ack o _ ((outBytes_puts text (by omega)).mono (by omega))

theorem sendOk_sends (ack : Bool) (o : Out) :
    Sends ack o (outFinish (outStr (ascii "OK") (outBeginAck ack o))) := by
  have hbegin := outBeginAck_length ack o
  have hsize : OUT_SIZE = 8208 := rfl
  have hpack : PACKET_SIZE = 8192 := rfl
  apply sends_one
  exact outStr_ascii_puts "OK" _ (plain_ascii _ _ rfl (by decide)) (by decide) (by omega)

/-- The packets of a region and the closing OK, from any point of the loop on. -/
theorem sendRegion_from (fuel : Nat) (data : List Byte) (ack : Bool) (o : Out)
    (h : data.length ≤ fuel) :
    Sends ack o (outFinish (outStr (ascii "OK")
      (outBeginAck (sendRegionLoop fuel data ack o).2 (sendRegionLoop fuel data ack o).1))) := by
  induction fuel generalizing data ack o with
  | zero => exact sendOk_sends ack o
  | succ fuel ih =>
    rw [sendRegionLoop]
    split
    · exact sendOk_sends ack o
    · rename_i hne
      have hpos := List.length_pos_iff.mpr hne
      have hchunk : MONITOR_CHUNK = 4092 := rfl
      have hrest : (data.drop MONITOR_CHUNK).length ≤ fuel := by
        rw [List.length_drop]
        omega
      exact (sendOutput_sends _ ack o (List.length_take_le _ _)).trans (ih _ false _ hrest)

theorem sendRegion_sends (data : List Byte) (o : Out) : Sends true o (sendRegion data o) :=
  sendRegion_from data.length data true o le_rfl

theorem clamp_puts (o : Out) (h : o.buf.length ≤ 2) :
    Puts 56 o (monStr (ascii " words\n") (monDec MD32_MAX (monStr (ascii "clamped to ") o))) := by
  have hsize : OUT_SIZE = 8208 := rfl
  have hs1 : (ascii "clamped to ").length = 11 := ascii_length _
  have hs2 : (ascii " words\n").length = 7 := ascii_length _
  have h1 := monStr_puts (ascii "clamped to ") (o := o) (by omega)
  have l1 := h1.length_le
  have h2 := monDec_puts MD32_MAX (o := monStr (ascii "clamped to ") o) (by omega)
  have l2 := h2.length_le
  have h3 := monStr_puts (ascii " words\n") (o := monDec MD32_MAX (monStr (ascii "clamped to ") o))
    (by omega)
  exact ((h1.trans h2).trans h3).mono (by omega)

theorem monitorMd32_sends (m : Mem) (p : List Byte) (o : Out) :
    Sends true o (monitorMd32 m p o) := by
  have hbegin := outBeginAck_length true o
  have hpack : PACKET_SIZE = 8192 := rfl
  unfold monitorMd32
  split
  · rename_i q hq
    simp only
    generalize (parseHex q).1 &&& ~~~3 = addr
    generalize (if (parseDec (skipSpaces (parseHex q).2)).1 = 0 then 4
      else (parseDec (skipSpaces (parseHex q).2)).1.toNat) = count
    split
    · have h1 := clamp_puts (outBeginAck true o) hbegin
      have l1 := h1.length_le
      generalize monStr (ascii " words\n") _ = o1 at h1 l1 ⊢
      have h2 := md32Loop_puts m addr MD32_MAX o1 le_rfl (by omega)
      exact sends_one true o _ ((h1.trans h2).mono (by omega))
    · rename_i hle
      have h2 := md32Loop_puts m addr count (outBeginAck true o) (not_lt.mp hle) (by omega)
      exact sends_one true o _ (h2.mono (by omega))
  · apply sendText_sends
    rw [ascii_length]
    decide

theorem handleMonitor_sends (m : Mem) (t : Trace) (p : List Byte) (o : Out) :
    Sends true o (handleMonitor m t p o) := by
  simp only [handleMonitor]
  split_ifs
  · exact monitorMd32_sends m _ o
  · exact sendRegion_sends _ o
  · exact sendRegion_sends _ o
  · apply sendText_sends
    rw [ascii_length]
    decide

theorem handlePacket_sends (c : Byte) (p : List Byte) (s : Stub) :
    Sends true s.out (handlePacket c p s).out :=
  sends_one true s.out _ (handle_puts c p _ (outBeginAck_length true s.out))

theorem dispatchReply_sends (c : Byte) (p : List Byte) (s : Stub) :
    Sends true s.out (dispatchReply c p s).out := by
  unfold dispatchReply
  split
  · exact handleMonitor_sends s.mem s.trace _ s.out
  · exact handlePacket_sends c p s

theorem doStep_sends (s : Stub) (h : (doStep s).1 = .returned) :
    Sends true s.out (doStep s).2.out := by
  have hbegin := outBeginAck_length true s.out
  have hsize : OUT_SIZE = 8208 := rfl
  have hpack : PACKET_SIZE = 8192 := rfl
  unfold doStep at h ⊢
  split at h
  · apply sends_one
    exact outStr_ascii_puts "E01" _ (plain_ascii _ _ rfl (by decide)) (by decide) (by omega)
  · split at h
    · rename_i next heq
      rw [if_pos heq]
      exact sends_one true s.out _ (stop_puts _ _ hbegin)
    · cases h

/-- Every command that returns has been answered by complete packets of at most PACKET_SIZE
characters, a '+' before the first and none before the others; no character was dropped on the way
and no word store was misaligned or ended past the buffer. -/
theorem dispatch_sends (cmd : List Byte) (s : Stub)
    (hret : (dispatch cmd s).1 = .returned) : Sends true s.out (dispatch cmd s).2.out := by
  rw [← traceCmd_out cmd s]
  obtain ⟨-, h⟩ | ⟨p, h⟩ | ⟨-, -, -, -, h⟩ | ⟨c, p, -, h⟩ := dispatch_cases cmd s
  · rw [h]
    exact sends_one true _ _ ((Puts.refl _).mono (Nat.zero_le _))
  · rw [h] at hret
    cases hret
  · rw [h] at hret ⊢
    exact doStep_sends _ hret
  · rw [h]
    exact dispatchReply_sends c p _

/-- A clamped md32, the longest monitor reply. -/
theorem dispatch_sends_md32 :
    Sends true Stub.idle.out
      (dispatch (ascii "qRcmd," ++ encode (ascii "md32 0x30000000 999")) .idle).2.out :=
  dispatch_sends (ascii "qRcmd," ++ encode (ascii "md32 0x30000000 999")) .idle rfl

end AipcOs.Rsp
