import AipcOs.RspDispatch
import AipcOs.RspWire

/-! What the parsing and output primitives of rsp.c compute: numerals, and appends to the reply
buffer as long as there is room. -/
namespace AipcOs.Rsp
open ByteMemory HexText RspWire

theorem ascii_vCont : ascii "vCont;" = [0x76, 0x43, 0x6F, 0x6E, 0x74, 0x3B] := rfl

theorem ascii_qRcmd : ascii "qRcmd," = [0x71, 0x52, 0x63, 0x6D, 0x64, 0x2C] := rfl

theorem prefixOf_head {x c : Byte} {xs p : List Byte} (h : (prefixOf (x :: xs) (c :: p)).isSome) :
    c = x := by
  by_contra hne
  rw [prefixOf, if_neg hne] at h
  cases h

/-- A command is empty, resumes, steps (by s or by vCont), or goes to the handlers that answer. -/
theorem dispatch_cases (cmd : List Byte) (s : Stub) :
    (cmd = [] ∧ dispatch cmd s = (.returned,
      { traceCmd cmd s with out := outFinish (outBegin (traceCmd cmd s).out) })) ∨
    (∃ p, dispatch cmd s = resume p (traceCmd cmd s)) ∨
    (∃ c p, cmd = c :: p ∧ (c = 0x73 ∨ c = 0x76) ∧ dispatch cmd s = doStep (traceCmd cmd s)) ∨
    ∃ c p, cmd = c :: p ∧ dispatch cmd s = (.returned, dispatchReply c p (traceCmd cmd s)) := by
  cases cmd with
  | nil => exact .inl ⟨rfl, rfl⟩
  | cons c p =>
    simp only [dispatch, vcont]
    split_ifs with h1 h2 h3 h4 h5
    · exact .inr (.inl ⟨p, rfl⟩)
    · exact .inr (.inr (.inl ⟨c, p, rfl, .inl h2.1, rfl⟩))
    · exact .inr (.inl ⟨[], rfl⟩)
    · exact .inr (.inr (.inl ⟨c, p, rfl, .inr (prefixOf_head h3), rfl⟩))
    · exact .inr (.inr (.inr ⟨c, p, rfl, rfl⟩))
    · exact .inr (.inr (.inr ⟨c, p, rfl, rfl⟩))

theorem hexval_eq (c : Byte) :
    hexval c = ((value? c).map (BitVec.ofNat 32)).getD 0xFFFFFFFF := by
  unfold hexval value?
  split_ifs <;> rfl

theorem hexval_of_value {c : Byte} {v : Nat} (h : value? c = some v) :
    hexval c = BitVec.ofNat 32 v := by
  rw [hexval_eq, h]
  rfl

theorem hexval_eq_max_iff (c : Byte) : hexval c = 0xFFFFFFFF ↔ value? c = none := by
  rw [hexval_eq]
  cases h : value? c with
  | none => simp
  | some v =>
    have hv := value?_lt h
    interval_cases v <;> decide

theorem shift_or_digit (x v : Nat) (hv : v < 16) :
    (BitVec.ofNat 32 x <<< 4) ||| BitVec.ofNat 32 v = BitVec.ofNat 32 (16 * x + v) := by
  apply BitVec.eq_of_toNat_eq
  have hv4 : v < 2 ^ 4 := hv
  have hhigh : (x % 2 ^ 32) <<< 4 % 2 ^ 32 = (x % 2 ^ 28) <<< 4 := by
    rw [Nat.shiftLeft_eq, Nat.shiftLeft_eq]
    omega
  rw [BitVec.toNat_or, BitVec.toNat_shiftLeft, BitVec.toNat_ofNat, BitVec.toNat_ofNat,
    BitVec.toNat_ofNat, hhigh, Nat.mod_eq_of_lt (by omega : v < 2 ^ 32),
    ← Nat.shiftLeft_add_eq_or_of_lt hv4, Nat.shiftLeft_eq]
  omega

def Stops (p : List Byte) : Prop := ∀ c ∈ p.head?, value? c = none

theorem parseHexLoop_digits (x : Nat) (ds rest : List Byte) (hd : Digits ds) (hr : Stops rest) :
    parseHexLoop (BitVec.ofNat 32 x) (ds ++ rest) = (BitVec.ofNat 32 (numeralFrom x ds), rest) := by
  induction ds generalizing x with
  | nil =>
    cases rest with
    | nil => rfl
    | cons c cs =>
      rw [List.nil_append, parseHexLoop, if_pos ((hexval_eq_max_iff c).2 (hr c rfl))]
      rfl
  | cons d ds ih =>
    obtain ⟨v, hv⟩ := hd.head
    have hne : ¬ hexval d = 0xFFFFFFFF := by
      rw [hexval_eq_max_iff, hv]
      exact Option.some_ne_none v
    rw [List.cons_append, parseHexLoop, if_neg hne, hexval_of_value hv,
      shift_or_digit x v (value?_lt hv), ih _ hd.tail, numeralFrom, hv]
    rfl

theorem parseHex_digits (ds rest : List Byte) (hd : Digits ds) (hr : Stops rest) :
    parseHex (ds ++ rest) = (BitVec.ofNat 32 (numeral ds), rest) :=
  parseHexLoop_digits 0 ds rest hd hr

theorem hexdigit_eq (v : Nat) (hv : v < 16) : hexdigit (BitVec.ofNat 32 v) = digit v := by
  interval_cases v <;> rfl

theorem hexdigit_high (b : Byte) : hexdigit ((b >>> 4).setWidth 32) = digit (b.toNat / 16) := by
  have hb := b.isLt
  rw [← hexdigit_eq _ (by omega)]
  congr 1
  apply BitVec.eq_of_toNat_eq
  rw [BitVec.toNat_setWidth, BitVec.toNat_ushiftRight, Nat.shiftRight_eq_div_pow, BitVec.toNat_ofNat]

theorem hexdigit_low (b : Byte) : hexdigit ((b &&& 0xF).setWidth 32) = digit (b.toNat % 16) := by
  rw [← hexdigit_eq _ (Nat.mod_lt _ (by omega))]
  congr 1
  apply BitVec.eq_of_toNat_eq
  have h15 : ((0xF : Byte).toNat) = 2 ^ 4 - 1 := rfl
  rw [BitVec.toNat_setWidth, BitVec.toNat_and, h15, Nat.and_two_pow_sub_one_eq_mod,
    BitVec.toNat_ofNat]

def Out.put (o : Out) (bs : List Byte) : Out := { o with buf := o.buf ++ bs }

@[simp] theorem Out.put_buf (o : Out) (bs : List Byte) : (o.put bs).buf = o.buf ++ bs := rfl

@[simp] theorem Out.put_nil (o : Out) : o.put [] = o := by simp [Out.put]

@[simp] theorem Out.put_put (o : Out) (xs ys : List Byte) : (o.put xs).put ys = o.put (xs ++ ys) := by
  simp [Out.put]

theorem outCh_put (c : Byte) (o : Out) (h : o.buf.length < OUT_SIZE) : outCh c o = o.put [c] := by
  rw [outCh, if_pos h]
  rfl

theorem outStr_put (s : List Byte) (o : Out) (h : o.buf.length + s.length ≤ OUT_SIZE) :
    outStr s o = o.put s := by
  induction s generalizing o with
  | nil => simp [outStr]
  | cons c cs ih =>
    simp only [List.length_cons] at h
    rw [outStr, outCh_put c o (by omega), ih]
    · simp
    · simp only [Out.put_buf, List.length_append, List.length_singleton]
      omega

theorem outByte_put (b : Byte) (o : Out) (h : o.buf.length + 2 ≤ OUT_SIZE) :
    outByte b o = o.put (byteText b) := by
  rw [outByte, hexdigit_high, hexdigit_low, outCh_put _ o (by omega), outCh_put]
  · simp [byteText]
  · simp only [Out.put_buf, List.length_append, List.length_singleton]
    omega

theorem outBytes_put (bs : List Byte) (o : Out) (h : o.buf.length + 2 * bs.length ≤ OUT_SIZE) :
    outBytes bs o = o.put (encode bs) := by
  induction bs generalizing o with
  | nil => simp [outBytes, encode]
  | cons b bs ih =>
    simp only [List.length_cons] at h
    rw [outBytes, outByte_put b o (by omega), ih]
    · simp [encode_cons]
    · simp only [Out.put_buf, List.length_append, byteText_length]
      omega

theorem outPair_put (b0 b1 : Byte) (o : Out) (ha : o.buf.length % 4 = 0)
    (h : o.buf.length + 4 ≤ OUT_SIZE) : outPair b0 b1 o = o.put (encode [b0, b1]) := by
  have hb : (o.badPair || o.buf.length % 4 != 0 || decide (OUT_SIZE < o.buf.length + 4)) =
      o.badPair := by
    simp [ha, h]
  rw [outPair, hb, wordBytes_leWord]
  simp only [hexdigit_high, hexdigit_low]
  rfl

def ackText (ack : Bool) : List Byte := if ack then [0x2B] else []

theorem outBeginAck_eq (ack : Bool) (o : Out) :
    outBeginAck ack o =
      { o with buf := ackText ack ++ [0x24], bodyStart := (ackText ack).length + 1 } := by
  cases ack <;> simp [outBeginAck, outCh, ackText, OUT_SIZE, PACKET_SIZE]

theorem outBeginAck_length (ack : Bool) (o : Out) : (outBeginAck ack o).buf.length ≤ 2 := by
  rw [outBeginAck_eq]
  cases ack <;> simp [ackText]

theorem byteSum_from (x : Nat) (bs : List Byte) :
    bs.foldl (fun s b => s + b.setWidth 32) (BitVec.ofNat 32 x) =
      BitVec.ofNat 32 (x + byteTotal bs) := by
  induction bs generalizing x with
  | nil => rfl
  | cons b bs ih =>
    have hb : b.setWidth 32 = BitVec.ofNat 32 b.toNat := by
      apply BitVec.eq_of_toNat_eq
      simp
    rw [List.foldl_cons, hb, ← BitVec.ofNat_add, ih]
    simp [byteTotal, Nat.add_assoc]

theorem byteSum_eq (bs : List Byte) : byteSum bs = BitVec.ofNat 32 (byteTotal bs) := by
  have h := byteSum_from 0 bs
  rwa [Nat.zero_add] at h

theorem byteSum_checksum (bs : List Byte) : (byteSum bs).setWidth 8 = checksum bs := by
  rw [byteSum_eq, checksum]
  apply BitVec.eq_of_toNat_eq
  rw [BitVec.toNat_setWidth, BitVec.toNat_ofNat, BitVec.toNat_ofNat]
  omega

def Out.sends (o : Out) (bs : List Byte) (start : Nat) : Out :=
  { o with buf := bs, bodyStart := start, sent := o.sent ++ [bs] }

@[simp] theorem Out.sends_sent (o : Out) (bs : List Byte) (start : Nat) :
    (o.sends bs start).sent = o.sent ++ [bs] := rfl

@[simp] theorem ackText_true (bs : List Byte) : ackText true ++ bs = 0x2B :: bs := rfl

@[simp] theorem ackText_false (bs : List Byte) : ackText false ++ bs = bs := rfl

/-- out_begin, a body that fits, out_finish. -/
theorem outFinish_put (ack : Bool) (body : List Byte) (o : Out) (h : body.length ≤ PACKET_SIZE) :
    outFinish ((outBeginAck ack o).put body) =
      o.sends (ackText ack ++ packet body) ((ackText ack).length + 1) := by
  have hlen : ((outBeginAck ack o).put body).buf.length ≤ PACKET_SIZE + 2 := by
    have := outBeginAck_length ack o
    simp only [Out.put_buf, List.length_append]
    omega
  have hbody : ((outBeginAck ack o).put body).buf.drop ((outBeginAck ack o).put body).bodyStart =
      body := by
    rw [outBeginAck_eq]
    exact List.drop_left' (by simp [Out.put])
  have hsize : OUT_SIZE = PACKET_SIZE + 16 := rfl
  simp only [outFinish, hbody, byteSum_checksum]
  rw [outCh_put _ _ (by omega), outByte_put]
  · rw [outBeginAck_eq]
    simp [bulkSend, Out.put, Out.sends, packet]
  · simp only [Out.put_buf, List.length_append, List.length_singleton] at hlen ⊢
    omega

end AipcOs.Rsp
