import AipcOs.RspBuffer
import AipcOs.WordBits

/-! The memory packets m, M and X. -/
namespace AipcOs.Rsp
open ByteMemory HexText RspWire WordBits

@[simp] theorem traceCmd_mem (cmd : List Byte) (s : Stub) : (traceCmd cmd s).mem = s.mem := by
  unfold traceCmd
  split <;> rfl

@[simp] theorem traceCmd_out (cmd : List Byte) (s : Stub) : (traceCmd cmd s).out = s.out := by
  unfold traceCmd
  split <;> rfl

@[simp] theorem traceCmd_regs (cmd : List Byte) (s : Stub) : (traceCmd cmd s).regs = s.regs := by
  unfold traceCmd
  split <;> rfl

/-- Commands other than c, C, s, v and q reach the switch. -/
theorem dispatch_packet (c : Byte) (p : List Byte) (s : Stub)
    (h : c ≠ 0x63 ∧ c ≠ 0x43 ∧ c ≠ 0x73 ∧ c ≠ 0x76 ∧ c ≠ 0x71) :
    dispatch (c :: p) s = (.returned, handlePacket c p (traceCmd (c :: p) s)) := by
  obtain ⟨h1, h2, h3, h4, h5⟩ := h
  simp only [dispatch, vcont, dispatchReply, ascii_vCont, ascii_qRcmd, prefixOf, h1, h2, h3, h4, h5,
    or_self, false_and, if_false, Option.isSome_none, Bool.false_eq_true]

theorem reply_str (ack : Bool) (text : List Byte) (o : Out) (h : text.length ≤ PACKET_SIZE) :
    outFinish (outStr text (outBeginAck ack o)) =
      o.sends (ackText ack ++ packet text) ((ackText ack).length + 1) := by
  have hb := outBeginAck_length ack o
  have hsize : OUT_SIZE = PACKET_SIZE + 16 := rfl
  rw [outStr_put _ _ (by omega), outFinish_put ack text o h]

def unescaped : Nat → List Byte → List Byte
  | 0, _ => []
  | r + 1, p =>
    match takeByte p with
    | some (b, rest) => b :: unescaped r rest
    | none => []

theorem unescaped_plain (r : Nat) (b : Byte) (p : List Byte) (h : b ≠ 0x7D) :
    unescaped (r + 1) (b :: p) = b :: unescaped r p := by
  simp only [unescaped, takeByte, if_neg h]

theorem takeByte_length {p rest : List Byte} {b : Byte} (h : takeByte p = some (b, rest)) :
    rest.length < p.length := by
  unfold takeByte at h
  split at h
  · cases h
  · split at h
    · split at h
      · cases h
        simp
      · cases h
        simp only [List.length_cons]
        omega
    · cases h
      simp

theorem takeWord_cases {p rest : List Byte} {w : Word} (h : takeWord p = some (w, rest)) :
    ∃ b0 b1 b2 b3, p = b0 :: b1 :: b2 :: b3 :: rest ∧ w = leWord b0 b1 b2 b3 ∧
      b0 ≠ 0x7D ∧ b1 ≠ 0x7D ∧ b2 ≠ 0x7D ∧ b3 ≠ 0x7D := by
  unfold takeWord at h
  split at h
  · rename_i b0 b1 b2 b3 tail
    split at h
    · rename_i hne
      cases h
      exact ⟨b0, b1, b2, b3, rfl, rfl, hne⟩
    · cases h
  · cases h

theorem takeWord_unescaped {p rest : List Byte} {w : Word} (h : takeWord p = some (w, rest)) (r : Nat) :
    unescaped (r + 4) p = wordBytes w ++ unescaped r rest := by
  obtain ⟨b0, b1, b2, b3, rfl, rfl, h0, h1, h2, h3⟩ := takeWord_cases h
  rw [unescaped_plain _ _ _ h0, unescaped_plain _ _ _ h1, unescaped_plain _ _ _ h2,
    unescaped_plain _ _ _ h3, wordBytes_leWord]
  rfl

/-- The word stores do what the byte stores would do, wherever the escapes stand. -/
theorem writeBinLoop_eq (fuel : Nat) (p : List Byte) (r : Nat) (a : Word) (m : Mem)
    (h : p.length ≤ fuel) : writeBinLoop fuel p r a m = storeBytes m a (unescaped r p) := by
  induction fuel generalizing p r a m with
  | zero =>
    have hp : p = [] := List.length_eq_zero_iff.mp (by omega)
    subst hp
    cases r <;> rfl
  | succ fuel ih =>
    cases r with
    | zero => rfl
    | succ r =>
      rw [writeBinLoop, if_neg (Nat.succ_ne_zero r)]
      cases hw : (if a &&& 3 = 0 ∧ 4 ≤ r + 1 then takeWord p else none) with
      | some wr =>
        obtain ⟨w, rest⟩ := wr
        obtain ⟨⟨ha, hr⟩, hw⟩ := Option.ite_none_right_eq_some.mp hw
        obtain ⟨k, hk⟩ := Nat.exists_eq_add_of_le' hr
        have hlen : rest.length ≤ fuel := by
          obtain ⟨b0, b1, b2, b3, rfl, -⟩ := takeWord_cases hw
          simp only [List.length_cons] at h
          omega
        simp only
        rw [ih _ _ _ _ hlen, hk, Nat.add_sub_cancel, takeWord_unescaped hw, storeBytes_append,
          store32_aligned m a w ha]
        rfl
      | none =>
        simp only
        rw [unescaped]
        cases hb : takeByte p with
        | none => rfl
        | some br =>
          obtain ⟨b, rest⟩ := br
          have hlt := takeByte_length hb
          simp only
          rw [ih _ _ _ _ (by omega), Nat.add_sub_cancel]
          rfl

/-- Address and data of an X packet. -/
theorem writeMemoryBin_eq (m : Mem) (p : List Byte) :
    writeMemoryBin m p =
      storeBytes m (parseWrite p).1 (unescaped (parseWrite p).2.1.toNat (parseWrite p).2.2) :=
  writeBinLoop_eq _ _ _ _ _ le_rfl

theorem unescaped_of_escapes {d t : List Byte} (h : Escapes d t) : unescaped d.length t = d := by
  induction h with
  | nil => rfl
  | plain b d t h1 h2 h3 h ih => rw [List.length_cons, unescaped_plain _ _ _ h3, ih]
  | escaped b d t h ih =>
    simp only [List.length_cons, unescaped, takeByte, if_true, ih]
    rw [BitVec.xor_assoc, BitVec.xor_self, BitVec.xor_zero]

def paired : Nat → List Byte → List Byte
  | r + 1, h :: l :: rest => ((hexval h <<< 4) ||| hexval l).setWidth 8 :: paired r rest
  | _, _ => []

theorem writeHexLoop_eq (r : Nat) (p : List Byte) (a : Word) (m : Mem) :
    writeHexLoop r p a m = storeBytes m a (paired r p) := by
  induction r, p, a, m using writeHexLoop.induct with
  | case1 r h l rest a m ih =>
    rw [writeHexLoop, paired, storeBytes, ih]
  | case2 a m r p hne =>
    rw [writeHexLoop.eq_2 _ _ _ _ hne, paired.eq_2 _ _ hne]
    rfl

theorem writeMemoryHex_eq (m : Mem) (p : List Byte) :
    writeMemoryHex m p =
      storeBytes m (parseWrite p).1 (paired (parseWrite p).2.1.toNat (parseWrite p).2.2) :=
  writeHexLoop_eq _ _ _ _

theorem hexPair_eq {h l : Byte} {x y : Nat} (hx : value? h = some x) (hy : value? l = some y) :
    ((hexval h <<< 4) ||| hexval l).setWidth 8 = BitVec.ofNat 8 (16 * x + y) := by
  have hxl := value?_lt hx
  have hyl := value?_lt hy
  rw [hexval_of_value hx, hexval_of_value hy, shift_or_digit x y hyl]
  apply BitVec.eq_of_toNat_eq
  rw [BitVec.toNat_setWidth, BitVec.toNat_ofNat, BitVec.toNat_ofNat]
  omega

theorem paired_of_decode {d t : List Byte} (h : decode t = some d) : paired d.length t = d := by
  induction t using decode.induct generalizing d with
  | case1 =>
    cases h
    rfl
  | case2 => cases h
  | case3 hi lo rest x y bs hbs hy hx ih =>
    simp only [decode, hx, hy, hbs, Option.some.injEq] at h
    subst h
    rw [List.length_cons, paired, ih hbs, hexPair_eq hx hy]
  | case4 hi lo rest hne ih =>
    rw [decode] at h
    split at h
    · rename_i x y bs hx hy hbs
      exact absurd hbs (hne x y bs hx hy)
    · cases h

theorem readTail_put (m : Mem) (a : Word) (r : Nat) (o : Out)
    (h : o.buf.length + 2 * r ≤ OUT_SIZE) :
    readTail m a r o = o.put (encode (readBytes m a r)) := by
  induction r generalizing a o with
  | zero => simp [readTail, readBytes, encode]
  | succ r ih =>
    rw [readTail, outByte_put _ _ (by omega), ih]
    · simp [readBytes, encode_cons]
    · simp only [Out.put_buf, List.length_append, byteText_length]
      omega

def readFromPairs (m : Mem) (a : Word) (r : Nat) (o : Out) : Out :=
  let (a, r, o) := readPairs m a r o
  readTail m a r o

theorem readFromPairs_put (m : Mem) (a : Word) (r : Nat) (o : Out) (ha : o.buf.length % 4 = 0)
    (h : o.buf.length + 2 * r ≤ OUT_SIZE) :
    readFromPairs m a r o = o.put (encode (readBytes m a r)) := by
  induction r using Nat.twoStepInduction generalizing a o with
  | zero => exact readTail_put m a 0 o h
  | one => exact readTail_put m a 1 o h
  | more r ih _ =>
    have hstep : readFromPairs m a (r + 2) o =
        readFromPairs m (a + 2) r (outPair (m a) (m (a + 1)) o) := rfl
    have hlen : (o.put (encode [m a, m (a + 1)])).buf.length = o.buf.length + 4 := by
      rw [Out.put_buf, List.length_append, encode_length]
      rfl
    have htwo : a + 1 + 1 = a + 2 := by bv_omega
    rw [hstep, outPair_put _ _ _ ha (by omega), ih _ _ (by omega) (by omega), Out.put_put,
      ← encode_append]
    simp only [readBytes, htwo]
    rfl

def readFromAlign (m : Mem) (a : Word) (r : Nat) (o : Out) : Out :=
  let (a, r, o) := readAlign m a r o
  readFromPairs m a r o

theorem readFromAlign_put (m : Mem) (a : Word) (r : Nat) (o : Out)
    (h : o.buf.length + 2 * r ≤ OUT_SIZE) :
    readFromAlign m a r o = o.put (encode (readBytes m a r)) := by
  induction r generalizing a o with
  | zero => simp [readFromAlign, readAlign, readFromPairs, readPairs, readTail, readBytes, encode]
  | succ r ih =>
    by_cases hal : o.buf.length % 4 = 0
    · have hstep : readFromAlign m a (r + 1) o = readFromPairs m a (r + 1) o := by
        rw [readFromAlign, readAlign, if_neg (not_not.mpr hal)]
      rw [hstep, readFromPairs_put m a (r + 1) o hal h]
    · have hstep : readFromAlign m a (r + 1) o = readFromAlign m (a + 1) r (outByte (m a) o) := by
        rw [readFromAlign, readAlign, if_pos hal]
        rfl
      rw [hstep, outByte_put _ _ (by omega), ih]
      · simp [readBytes, encode_cons]
      · simp only [Out.put_buf, List.length_append, byteText_length]
        omega

def parseRead (p : List Byte) : Word × Nat :=
  let (addr, p) := parseHex p
  let (len, _) := parseHex (skipOne 0x2C p)
  (addr, min len.toNat ((OUT_SIZE - 16) / 2))

/-- The pair path gives the digits that the byte path gives. -/
theorem readMemory_put (m : Mem) (p : List Byte) (o : Out)
    (h : o.buf.length ≤ 2) :
    readMemory m p o = o.put (encode (readBytes m (parseRead p).1 (parseRead p).2)) := by
  have hlen : (parseRead p).2 ≤ 4096 := min_le_right _ _
  have hsize : OUT_SIZE = 8208 := rfl
  exact readFromAlign_put m _ _ o (by omega)

def located (addr len rest : List Byte) : List Byte := addr ++ 0x2C :: (len ++ rest)

def binWrite (addr len data : List Byte) : List Byte := 0x58 :: located addr len (0x3A :: data)
def hexWrite (addr len data : List Byte) : List Byte := 0x4D :: located addr len (0x3A :: data)
def readRequest (addr len : List Byte) : List Byte := 0x6D :: located addr len []

theorem parse_located {addr len rest : List Byte} (ha : Digits addr) (hl : Digits len)
    (hr : Stops rest) :
    parseHex (located addr len rest) = (BitVec.ofNat 32 (numeral addr), 0x2C :: (len ++ rest)) ∧
      parseHex (skipOne 0x2C (0x2C :: (len ++ rest))) = (BitVec.ofNat 32 (numeral len), rest) := by
  constructor
  · apply parseHex_digits _ _ ha
    intro c hc
    cases hc
    decide
  · rw [skipOne, if_pos rfl]
    exact parseHex_digits _ _ hl hr

theorem parseWrite_located {addr len data : List Byte} (ha : Digits addr) (hl : Digits len) :
    parseWrite (located addr len (0x3A :: data)) =
      (BitVec.ofNat 32 (numeral addr), BitVec.ofNat 32 (numeral len), data) := by
  have hr : Stops (0x3A :: data) := by
    intro c hc
    cases hc
    decide
  obtain ⟨h1, h2⟩ := parse_located ha hl hr
  simp only [parseWrite, h1, h2]
  rw [skipOne, if_pos rfl]

theorem parseRead_located {addr len : List Byte} (ha : Digits addr) (hl : Digits len) :
    parseRead (located addr len []) =
      (BitVec.ofNat 32 (numeral addr), min (BitVec.ofNat 32 (numeral len)).toNat 4096) := by
  have hr : Stops [] := by simp [Stops]
  obtain ⟨h1, h2⟩ := parse_located ha hl hr
  simp only [parseRead, h1, h2]
  rfl

def Wrote (a : Word) (d : List Byte) (s : Stub) (r : Exit × Stub) : Prop :=
  r.1 = .returned ∧ (∀ x, r.2.mem x = (d[(x - a).toNat]?).getD (s.mem x)) ∧
    r.2.out.sent = s.out.sent ++ [0x2B :: packet (ascii "OK")]

theorem ascii_ok_length : (ascii "OK").length ≤ PACKET_SIZE := by
  rw [ascii_length]
  decide

/-- The switch case of a write that amounts to storing `d` at `a`. -/
theorem dispatch_wrote {c : Byte} {p : List Byte} {s : Stub} {a : Word} {d : List Byte}
    (hc : c ≠ 0x63 ∧ c ≠ 0x43 ∧ c ≠ 0x73 ∧ c ≠ 0x76 ∧ c ≠ 0x71) (hd : d.length ≤ CMD_SIZE)
    (hh : ∀ r : Stub, handle c p r =
      { r with mem := storeBytes r.mem a d, out := outStr (ascii "OK") r.out }) :
    Wrote a d s (dispatch (c :: p) s) := by
  have hsize : CMD_SIZE = 8192 := rfl
  rw [dispatch_packet c p s hc, handlePacket, hh]
  refine ⟨rfl, ?_, ?_⟩
  · intro x
    rw [← storeBytes_apply _ _ _ _ (by omega)]
    simp
  · have hout := reply_str true (ascii "OK") s.out ascii_ok_length
    simpa [outBegin] using congrArg Out.sent hout

theorem dispatch_binWrite {addr len d t : List Byte} (s : Stub) (ha : Digits addr)
    (hl : Digits len) (hn : numeral len = d.length) (he : Escapes d t)
    (hfit : (binWrite addr len t).length ≤ CMD_SIZE) :
    Wrote (BitVec.ofNat 32 (numeral addr)) d s (dispatch (binWrite addr len t) s) := by
  have hd : d.length ≤ CMD_SIZE := by
    have hle := he.length_le
    simp only [binWrite, located, List.length_cons, List.length_append] at hfit
    omega
  have hsize : CMD_SIZE = 8192 := rfl
  have hmem (m : Mem) : writeMemoryBin m (located addr len (0x3A :: t)) =
      storeBytes m (BitVec.ofNat 32 (numeral addr)) d := by
    rw [writeMemoryBin_eq, parseWrite_located ha hl, hn, BitVec.toNat_ofNat,
      Nat.mod_eq_of_lt (by omega), unescaped_of_escapes he]
  apply dispatch_wrote (by decide) hd
  intro r
  rw [← hmem]
  simp [handle]

theorem decode_length {d t : List Byte} (h : decode t = some d) : d.length ≤ t.length := by
  induction t using decode.induct generalizing d with
  | case1 =>
    cases h
    rfl
  | case2 => cases h
  | case3 hi lo rest x y bs hbs hy hx ih =>
    simp only [decode, hx, hy, hbs, Option.some.injEq] at h
    subst h
    have := ih hbs
    simp only [List.length_cons]
    omega
  | case4 hi lo rest hne ih =>
    rw [decode] at h
    split at h
    · rename_i x y bs hx hy hbs
      exact absurd hbs (hne x y bs hx hy)
    · cases h

theorem dispatch_hexWrite {addr len d t : List Byte} (s : Stub) (ha : Digits addr)
    (hl : Digits len) (hn : numeral len = d.length) (ht : decode t = some d)
    (hfit : (hexWrite addr len t).length ≤ CMD_SIZE) :
    Wrote (BitVec.ofNat 32 (numeral addr)) d s (dispatch (hexWrite addr len t) s) := by
  have hd : d.length ≤ CMD_SIZE := by
    have hle := decode_length ht
    simp only [hexWrite, located, List.length_cons, List.length_append] at hfit
    omega
  have hsize : CMD_SIZE = 8192 := rfl
  have hmem (m : Mem) : writeMemoryHex m (located addr len (0x3A :: t)) =
      storeBytes m (BitVec.ofNat 32 (numeral addr)) d := by
    rw [writeMemoryHex_eq, parseWrite_located ha hl, hn, BitVec.toNat_ofNat,
      Nat.mod_eq_of_lt (by omega), paired_of_decode ht]
  apply dispatch_wrote (by decide) hd
  intro r
  rw [← hmem]
  simp [handle]

def Replied (body : List Byte) (s : Stub) (r : Exit × Stub) : Prop :=
  r.1 = .returned ∧ r.2.mem = s.mem ∧ r.2.out.sent = s.out.sent ++ [0x2B :: packet body]

theorem dispatch_readRequest {addr len : List Byte} (s : Stub) (ha : Digits addr)
    (hl : Digits len) (hn : numeral len ≤ 4096) :
    Replied (encode (readBytes s.mem (BitVec.ofNat 32 (numeral addr)) (numeral len))) s
      (dispatch (readRequest addr len) s) := by
  have hread := readMemory_put s.mem (located addr len []) (outBegin s.out)
    (outBeginAck_length true s.out)
  rw [parseRead_located ha hl, BitVec.toNat_ofNat, Nat.mod_eq_of_lt (by omega),
    Nat.min_eq_left hn] at hread
  have hlen : (encode (readBytes s.mem (BitVec.ofNat 32 (numeral addr)) (numeral len))).length ≤
      PACKET_SIZE := by
    have hsize : PACKET_SIZE = 8192 := rfl
    rw [encode_length, readBytes_length]
    omega
  rw [readRequest, dispatch_packet _ _ _ (by decide)]
  refine ⟨rfl, by simp [handlePacket, handle], ?_⟩
  have hout := outFinish_put true _ s.out hlen
  rw [outBegin] at hread
  rw [← hread] at hout
  simpa [handlePacket, handle, outBegin] using congrArg Out.sent hout

/-- The three memory packets move the same bytes: after an X or an M packet that spells `d`,
exactly the bytes from `a` on are `d`, and an m packet reads them back. The word stores and the
word-wide output are no different from the byte-wide ones. -/
theorem transfer_faithful (s : Stub) (a : Word) (d addr len : List Byte) (ha : Digits addr)
    (haddr : BitVec.ofNat 32 (numeral addr) = a) (hl : Digits len) (hlen : numeral len = d.length) :
    (∀ t, Escapes d t → (binWrite addr len t).length ≤ CMD_SIZE →
      Wrote a d s (dispatch (binWrite addr len t) s)) ∧
    (∀ t, decode t = some d → (hexWrite addr len t).length ≤ CMD_SIZE →
      Wrote a d s (dispatch (hexWrite addr len t) s)) ∧
    (∀ r, Wrote a d s r → d.length ≤ 4096 →
      ∃ body, decode body = some d ∧ Replied body r.2 (dispatch (readRequest addr len) r.2)) ∧
    (∀ m p, writeMemoryBin m p =
      storeBytes m (parseWrite p).1 (unescaped (parseWrite p).2.1.toNat (parseWrite p).2.2)) ∧
    (∀ m p o, readMemory m p (outBegin o) =
      outBytes (readBytes m (parseRead p).1 (parseRead p).2) (outBegin o)) := by
  subst haddr
  refine ⟨fun t ht hfit => dispatch_binWrite s ha hl hlen ht hfit,
    fun t ht hfit => dispatch_hexWrite s ha hl hlen ht hfit, ?_, writeMemoryBin_eq, ?_⟩
  · intro r hr hsmall
    refine ⟨encode d, decode_encode d, ?_⟩
    have hmem : r.2.mem = storeBytes s.mem (BitVec.ofNat 32 (numeral addr)) d := by
      funext x
      rw [hr.2.1 x, storeBytes_apply _ _ _ _ (by omega)]
    have hread := dispatch_readRequest r.2 ha hl (by omega)
    rwa [hmem, hlen, readBytes_storeBytes _ _ _ (by omega)] at hread
  · intro m p o
    have hb := outBeginAck_length true o
    have hmax : (parseRead p).2 ≤ 4096 := min_le_right _ _
    have hsize : OUT_SIZE = 8208 := rfl
    rw [outBegin, readMemory_put _ _ _ hb, outBytes_put]
    rw [readBytes_length]
    omega

theorem transfer_faithful_escaped :
    Wrote 0x30000002 [0x7D, 0x23, 0x01] .idle
      (dispatch (binWrite (ascii "30000002") (ascii "3") [0x7D, 0x5D, 0x7D, 0x03, 0x01]) .idle) :=
  (transfer_faithful .idle 0x30000002 [0x7D, 0x23, 0x01] (ascii "30000002") (ascii "3")
    (by decide) (by decide) (by decide) (by decide)).1 _
    (.escaped 0x7D _ _ (.escaped 0x23 _ _ (.plain 0x01 _ _ (by decide) (by decide) (by decide) .nil)))
    (by decide)

end AipcOs.Rsp
