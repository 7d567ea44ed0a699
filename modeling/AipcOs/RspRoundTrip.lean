import AipcOs.Histories
import AipcOs.RspReply

/-! gdbstub/rsp.c: what GDB reads it can write back, the register file in one packet and
target.xml in as many as the host likes. -/
namespace AipcOs.Rsp
open ByteMemory Histories HexText RspWire Step

def regsText (g : ArmRegs) : List Byte := encode ((slots g).flatMap wordBytes)

theorem outWords_eq (vs : List Word) (o : Out) :
    outWords vs o = outBytes (vs.flatMap wordBytes) o := by
  induction vs generalizing o with
  | nil => rfl
  | cons v vs ih => exact ih (outWord v o)

theorem regBytes_length (vs : List Word) : (vs.flatMap wordBytes).length = 4 * vs.length := by
  induction vs with
  | nil => rfl
  | cons v vs ih =>
    rw [List.flatMap_cons, List.length_append, ih, List.length_cons]
    change 4 + 4 * vs.length = 4 * (vs.length + 1)
    omega

theorem regsText_length (g : ArmRegs) : (regsText g).length = 136 := by
  rw [regsText, encode_length, regBytes_length, slots_length]

theorem readRegs_put (g : ArmRegs) (o : Out) (h : o.buf.length ≤ 2) :
    readRegs g o = o.put (regsText g) := by
  have hsize : OUT_SIZE = 8208 := rfl
  rw [readRegs_slots, outWords_eq, outBytes_put, regsText]
  rw [regBytes_length, slots_length]
  omega

/-- One digit pair, as the parser of the G packet puts it in its place. -/
theorem pair_eq (b : Byte) :
    (hexval (digit (b.toNat / 16)) <<< 4) ||| hexval (digit (b.toNat % 16)) = b.setWidth 32 := by
  have hb := b.isLt
  rw [hexval_of_value (value?_digit _ (by omega)), hexval_of_value (value?_digit _ (by omega)),
    shift_or_digit _ _ (by omega), Nat.div_add_mod]
  exact BitVec.ofNat_toNat 32 b

theorem parseSlot_encode (v : Word) (rest : List Byte) :
    parseSlot 0 4 (encode (wordBytes v) ++ rest) = (v, rest) := by
  have hsteps : parseSlot 0 4 (encode (wordBytes v) ++ rest) =
      (0#32 ||| ((v.extractLsb' 0 8).setWidth 32 <<< 0) ||| ((v.extractLsb' 8 8).setWidth 32 <<< 8) |||
        ((v.extractLsb' 16 8).setWidth 32 <<< 16) ||| ((v.extractLsb' 24 8).setWidth 32 <<< 24),
        rest) := by
    simp only [← pair_eq]
    rfl
  rw [hsteps, BitVec.zero_or, BitVec.shiftLeft_zero]
  exact congrArg (·, rest) (leWord_extract v)

theorem slots_setSlot (g : ArmRegs) {i : Nat} (hi : i < 17) (v : Word) :
    slots (setSlot g i v) = (slots g).set i v := by
  by_cases h : i < 13
  · have hset : setSlot g i v = { g with r := Function.update g.r ⟨i, h⟩ v } := dif_pos h
    have hupdate : List.ofFn (Function.update g.r ⟨i, h⟩ v) = (List.ofFn g.r).set i v := by
      apply List.ext_getElem
      · simp
      · intro j hj hj'
        simp only [List.getElem_ofFn, List.getElem_set, Function.update_apply, Fin.mk.injEq,
          eq_comm]
    rw [hset, slots, slots, List.set_append_left _ _ (by simpa using h)]
    exact congrArg (· ++ _) hupdate
  · obtain rfl | rfl | rfl | rfl : i = 13 ∨ i = 14 ∨ i = 15 ∨ i = 16 := by omega
    · simp [setSlot, slots]
    · simp [setSlot, slots]
    · simp [setSlot, slots]
    · simp [setSlot, slots]

theorem slots_inj {g g' : ArmRegs} (h : slots g = slots g') : g = g' := by
  obtain ⟨r, sp, lr, pc, cpsr⟩ := g
  obtain ⟨r', sp', lr', pc', cpsr'⟩ := g'
  obtain ⟨hr, htail⟩ := List.append_inj h (by simp)
  obtain rfl : r = r' := List.ofFn_injective hr
  simp only [List.cons.injEq, and_true] at htail
  obtain ⟨rfl, rfl, rfl, rfl⟩ := htail
  rfl

/-- The loop of write_regs before its last `ws.length` words. -/
theorem writeRegsLoop_encode (ws : List Word) (g : ArmRegs) (hk : ws.length ≤ 17) :
    slots (writeRegsLoop ws.length (encode (ws.flatMap wordBytes)) g) =
      (slots g).take (17 - ws.length) ++ ws := by
  induction ws generalizing g with
  | nil =>
    have hlen := slots_length g
    rw [List.length_nil, List.append_nil, List.take_of_length_le (by omega)]
    rfl
  | cons w ws ih =>
    simp only [List.length_cons] at hk
    have hlen := slots_length g
    have hstep : writeRegsLoop (ws.length + 1) (encode ((w :: ws).flatMap wordBytes)) g =
        writeRegsLoop ws.length (encode (ws.flatMap wordBytes)) (setSlot g (16 - ws.length) w) := by
      rw [writeRegsLoop, List.flatMap_cons, encode_append, parseSlot_encode]
    have hsplit : 17 - ws.length = 16 - ws.length + 1 := by omega
    rw [List.length_cons, hstep, ih _ (by omega), slots_setSlot _ (by omega), hsplit,
      List.take_succ_eq_append_getElem (by simp; omega), List.getElem_set_self,
      List.take_set_of_le (le_refl _), List.append_assoc]
    congr 2
    omega

theorem writeRegs_regsText (g g' : ArmRegs) : writeRegs g' (regsText g) = g := by
  apply slots_inj
  have hloop := writeRegsLoop_encode (slots g) g' (slots_length g).le
  rw [slots_length] at hloop
  exact hloop

theorem dispatch_readRegs (s : Stub) : Replied (regsText s.regs) s (dispatch [0x67] s) := by
  have hread := readRegs_put s.regs (outBegin s.out) (outBeginAck_length true s.out)
  have hlen : (regsText s.regs).length ≤ PACKET_SIZE := by
    rw [regsText_length]
    decide
  rw [dispatch_packet _ _ _ (by decide)]
  refine ⟨rfl, by simp [handlePacket, handle], ?_⟩
  have hout := outFinish_put true _ s.out hlen
  rw [outBegin] at hread
  rw [← hread] at hout
  simpa [handlePacket, handle, outBegin] using congrArg Out.sent hout

theorem dispatch_writeRegs (s : Stub) (g : ArmRegs) :
    Replied (ascii "OK") s (dispatch (0x47 :: regsText g) s) ∧
      (dispatch (0x47 :: regsText g) s).2.regs = g := by
  rw [dispatch_packet _ _ _ (by decide)]
  refine ⟨⟨rfl, by simp [handlePacket, handle], ?_⟩, ?_⟩
  · have hout := reply_str true (ascii "OK") s.out ascii_ok_length
    simpa [handlePacket, handle, outBegin] using congrArg Out.sent hout
  · simp [handlePacket, handle, writeRegs_regsText]

def xferText : List Byte := ascii "qXfer:features:read:target.xml:"

def xferRequest (off len : List Byte) : List Byte := xferText ++ located off len []

def xferCount (off len : Nat) : Nat := min (min (targetXml.length - off) len) (PACKET_SIZE - 16)

def xferBody (off len : Nat) : List Byte :=
  if targetXml.length ≤ off then [0x6C]
  else (if off + xferCount off len < targetXml.length then 0x6D else 0x6C) ::
    (targetXml.drop off).take (xferCount off len)

theorem xferReply_put (off len : Word) (o : Out) (h : o.buf.length ≤ 2) :
    xferReply off len o = o.put (xferBody off.toNat len.toNat) := by
  have hsize : OUT_SIZE = 8208 := rfl
  have hpack : PACKET_SIZE - 16 = 8176 := rfl
  by_cases hend : targetXml.length ≤ off.toNat
  · have hl : (ascii "l").length = 1 := ascii_length "l"
    rw [xferBody, if_pos hend]
    simp only [xferReply, if_pos hend]
    exact outStr_put _ o (by omega)
  · have hcount : xferCount off.toNat len.toNat ≤ 8176 := min_le_right _ _
    have htake := List.length_take_le (xferCount off.toNat len.toNat) (targetXml.drop off.toNat)
    have hfold : min (min (targetXml.length - off.toNat) len.toNat) (PACKET_SIZE - 16) =
        xferCount off.toNat len.toNat := rfl
    rw [xferBody, if_neg hend]
    simp only [xferReply, if_neg hend, hfold]
    rw [outCh_put _ o (by omega), outStr_put, Out.put_put, List.singleton_append]
    rw [Out.put_buf, List.length_append, List.length_singleton]
    omega

theorem xferBody_length (off len : Nat) : (xferBody off len).length ≤ PACKET_SIZE := by
  have hpack : PACKET_SIZE = 8192 := rfl
  have hcount : xferCount off len ≤ 8176 := min_le_right _ _
  have htake := List.length_take_le (xferCount off len) (targetXml.drop off)
  rw [xferBody]
  split
  · rw [List.length_singleton]
    omega
  · rw [List.length_cons]
    omega

theorem prefixOf_append (s p : List Byte) : prefixOf s (s ++ p) = some p := by
  induction s with
  | nil => rfl
  | cons c s ih => rw [List.cons_append, prefixOf, if_pos rfl, ih]

theorem ascii_qSupported : ascii "qSupported" =
    [0x71, 0x53, 0x75, 0x70, 0x70, 0x6F, 0x72, 0x74, 0x65, 0x64] := rfl

theorem xferText_head : ∃ tail, xferText = 0x71 :: 0x58 :: tail := ⟨_, rfl⟩

/-- Whatever the stub is doing, a request is answered with its part of target.xml. -/
theorem dispatch_xfer (s : Stub) {off len : List Byte} (ho : Digits off) (hl : Digits len) :
    Replied (xferBody (numeral off % 2 ^ 32) (numeral len % 2 ^ 32)) s
      (dispatch (xferRequest off len) s) := by
  obtain ⟨tail, htail⟩ := xferText_head
  have hstops : Stops [] := by simp [Stops]
  obtain ⟨hparse, hparse'⟩ := parse_located ho hl hstops
  have hsupported : prefixOf (ascii "qSupported") (xferRequest off len) = none := by
    simp [xferRequest, htail, ascii_qSupported, prefixOf]
  have hquery (o : Out) : handleQuery (xferRequest off len) o =
      xferReply (BitVec.ofNat 32 (numeral off)) (BitVec.ofNat 32 (numeral len)) o := by
    rw [handleQuery, hsupported]
    simp only [xferRequest]
    rw [← xferText, prefixOf_append]
    simp only [hparse, hparse']
  have hcmd : xferRequest off len = 0x71 :: 0x58 :: (tail ++ located off len []) := by
    rw [xferRequest, htail]
    rfl
  have hpacket : dispatch (xferRequest off len) s =
      (.returned, handlePacket 0x71 (0x58 :: (tail ++ located off len []))
        (traceCmd (xferRequest off len) s)) := by
    rw [hcmd]
    simp [dispatch, vcont, dispatchReply, ascii_vCont, ascii_qRcmd, prefixOf]
  have hreply := xferReply_put (BitVec.ofNat 32 (numeral off)) (BitVec.ofNat 32 (numeral len))
    (outBegin s.out) (outBeginAck_length true s.out)
  rw [BitVec.toNat_ofNat, BitVec.toNat_ofNat, ← hquery, hcmd] at hreply
  rw [hpacket]
  refine ⟨rfl, by simp [handlePacket, handle], ?_⟩
  have hout := outFinish_put true _ s.out
    (xferBody_length (numeral off % 2 ^ 32) (numeral len % 2 ^ 32))
  rw [outBegin] at hreply
  rw [← hreply] at hout
  simpa [handlePacket, handle, outBegin] using congrArg Out.sent hout

theorem packet_injective {a b : List Byte} (h : packet a = packet b) : a = b := by
  have hbody : a ++ 0x23 :: byteText (checksum a) = b ++ 0x23 :: byteText (checksum b) :=
    List.tail_eq_of_cons_eq h
  exact (List.append_inj' hbody rfl).1

theorem Replied.unique {a b : List Byte} {s : Stub} {r : Exit × Stub} (ha : Replied a s r)
    (hb : Replied b s r) : a = b := by
  have hsent := List.append_cancel_left (ha.2.2.symm.trans hb.2.2)
  exact packet_injective (List.tail_eq_of_cons_eq (List.head_eq_of_cons_eq hsent))

def xmlOf (replies : List (List Byte)) : List Byte := replies.flatMap List.tail

/-- The replies to a host that reads target.xml on from what it has, in pieces of any length, from
a stub that may do anything else in between. -/
inductive Session : List (List Byte) → Prop where
  | start : Session []
  | ask {replies : List (List Byte)} {s : Stub} {off len body : List Byte} (h : Session replies)
      (ho : Digits off) (hoff : numeral off = (xmlOf replies).length)
      (hl : Digits len) (hlen : numeral len % 2 ^ 32 ≠ 0)
      (hr : Replied body s (dispatch (xferRequest off len) s)) : Session (replies ++ [body])

theorem flatMap_ascii_length {n : Nat} {lines : List String}
    (h : ∀ s ∈ lines, (ascii s).length ≤ n) : (lines.flatMap ascii).length ≤ lines.length * n := by
  rw [List.length_flatMap]
  simpa using List.sum_le_card_nsmul (lines.map fun s => (ascii s).length) n (by simpa using h)

theorem targetXml_length : targetXml.length < 2 ^ 32 := by
  refine (flatMap_ascii_length (n := 50) ?_).trans_lt (by decide)
  simp only [List.forall_mem_cons]
  repeat' apply And.intro
  all_goals first | exact (ascii_ofList_length _).trans_le (by decide) | exact List.forall_mem_nil _

theorem xmlOf_snoc (replies : List (List Byte)) (body : List Byte) :
    xmlOf (replies ++ [body]) = xmlOf replies ++ body.tail := by
  simp [xmlOf]

/-- What a reply adds to the first `n` bytes of target.xml. -/
theorem xferBody_take {n len : Nat} (hn : n ≤ targetXml.length) (hlen : len ≠ 0) :
    ∃ k ≤ targetXml.length, targetXml.take n ++ (xferBody n len).tail = targetXml.take k ∧
      (xferBody n len).head? = some (if k = targetXml.length then 0x6C else 0x6D) ∧
      (k = targetXml.length ∨ n < k) := by
  by_cases hend : targetXml.length ≤ n
  · have hall : n = targetXml.length := le_antisymm hn hend
    refine ⟨n, hn, ?_, ?_, Or.inl hall⟩
    · simp [xferBody, hend]
    · rw [xferBody, if_pos hend, if_pos hall]
      rfl
  · have hcount : xferCount n len ≤ targetXml.length - n :=
      (min_le_left _ _).trans (min_le_left _ _)
    have hpos : 0 < xferCount n len := by
      simp only [xferCount, PACKET_SIZE]
      omega
    refine ⟨n + xferCount n len, by omega, ?_, ?_, Or.inr (by omega)⟩
    · rw [xferBody, if_neg hend, List.tail_cons, List.take_add]
    · rw [xferBody, if_neg hend, List.head?_cons]
      by_cases hlast : n + xferCount n len = targetXml.length
      · rw [if_pos hlast, if_neg (by omega)]
      · rw [if_neg hlast, if_pos (by omega)]

structure Reading (replies : List (List Byte)) : Prop where
  covers : ∃ n ≤ targetXml.length, xmlOf replies = targetXml.take n
  marked : ∀ before body after, replies = before ++ body :: after →
    body.head? = some (if xmlOf (before ++ [body]) = targetXml then 0x6C else 0x6D)
  ahead : xmlOf replies = targetXml ∨ replies.length ≤ (xmlOf replies).length

theorem take_eq_targetXml {n : Nat} (hn : n ≤ targetXml.length) :
    targetXml.take n = targetXml ↔ n = targetXml.length := by
  rw [List.take_eq_self_iff]
  omega

theorem reading_snoc {replies : List (List Byte)} (h : Reading replies) {len : Nat}
    (hlen : len ≠ 0) : Reading (replies ++ [xferBody (xmlOf replies).length len]) := by
  obtain ⟨n, hn, hxml⟩ := h.covers
  have hlength : (xmlOf replies).length = n := by
    rw [hxml, List.length_take, min_eq_left hn]
  obtain ⟨k, hk, htake, hmark, hahead⟩ := xferBody_take hn hlen
  rw [hlength]
  generalize xferBody n len = new at htake hmark
  have hnew : xmlOf (replies ++ [new]) = targetXml.take k := by
    rw [xmlOf_snoc, hxml, htake]
  refine ⟨⟨k, hk, hnew⟩, forall_entry_snoc h.marked ?_, ?_⟩
  · simp only [hnew, take_eq_targetXml hk]
    exact hmark
  · obtain hend | hmore := hahead
    · exact Or.inl (hnew.trans ((take_eq_targetXml hk).mpr hend))
    · right
      have hle : replies.length ≤ n := by
        obtain hend | hle := h.ahead
        · have hall := (take_eq_targetXml hn).mp (hxml.symm.trans hend)
          exact absurd (hmore.trans_le hk) (hall ▸ lt_irrefl n)
        · exact hlength ▸ hle
      rw [hnew, List.length_take, min_eq_left hk, List.length_append, List.length_singleton]
      exact hle.trans_lt hmore

theorem Session.reading {replies : List (List Byte)} (h : Session replies) : Reading replies := by
  induction h with
  | start =>
    exact ⟨⟨0, Nat.zero_le _, rfl⟩, fun before body after heq => by simp at heq, Or.inr le_rfl⟩
  | ask h ho hoff hl hlen hr ih =>
    rename_i replies s off len body
    obtain ⟨n, hn, hxml⟩ := ih.covers
    have hlength : (xmlOf replies).length ≤ targetXml.length := by
      rw [hxml]
      exact List.length_take_le' _ _
    have hsmall : numeral off % 2 ^ 32 = (xmlOf replies).length := by
      rw [hoff, Nat.mod_eq_of_lt (hlength.trans_lt targetXml_length)]
    have hbody : body = xferBody (xmlOf replies).length (numeral len % 2 ^ 32) := by
      rw [← hsmall]
      exact hr.unique (dispatch_xfer s ho hl)
    rw [hbody]
    exact reading_snoc ih hlen

/-- The G packet takes back what the g packet gave, whatever the registers became in between, and
target.xml arrives whole in pieces of any lengths: every request is answered, a reply is marked
'l' when it completes the text and 'm' before, and after enough replies it is complete. -/
theorem round_trips :
    (∀ s s' body, Replied body s (dispatch [0x67] s) →
      Replied (ascii "OK") s' (dispatch (0x47 :: body) s') ∧
        (dispatch (0x47 :: body) s').2.regs = s.regs) ∧
    (∀ s, ∃ body, Replied body s (dispatch [0x67] s)) ∧
    (∀ replies, Session replies →
      xmlOf replies <+: targetXml ∧
      (∀ before body after, replies = before ++ body :: after →
        body.head? = some (if xmlOf (before ++ [body]) = targetXml then 0x6C else 0x6D)) ∧
      (targetXml.length ≤ replies.length → xmlOf replies = targetXml)) ∧
    (∀ s off len, Digits off → Digits len →
      ∃ body, Replied body s (dispatch (xferRequest off len) s)) := by
  refine ⟨?_, fun s => ⟨_, dispatch_readRegs s⟩, ?_,
    fun s off len ho hl => ⟨_, dispatch_xfer s ho hl⟩⟩
  · intro s s' body hbody
    obtain rfl := hbody.unique (dispatch_readRegs s)
    exact dispatch_writeRegs s' s.regs
  · intro replies hsession
    obtain ⟨⟨n, hn, hxml⟩, hmarked, hahead⟩ := hsession.reading
    have hpre : xmlOf replies <+: targetXml := hxml ▸ List.take_prefix n targetXml
    refine ⟨hpre, hmarked, fun hlong => ?_⟩
    obtain hend | hle := hahead
    · exact hend
    · exact hpre.eq_of_length_le (hlong.trans hle)

theorem round_trips_idle :
    (dispatch (0x47 :: regsText Stub.idle.regs) .idle).2.regs = Stub.idle.regs ∧
      ∃ body, Replied body .idle (dispatch (xferRequest (ascii "0") (ascii "ff")) .idle) :=
  ⟨(round_trips.1 .idle .idle _ (dispatch_readRegs .idle)).2,
    round_trips.2.2.2 .idle (ascii "0") (ascii "ff") (by decide) (by decide)⟩

end AipcOs.Rsp
