import AipcOs.RspReply
import AipcOs.Pieces

/-! Console output: every packet of send_output and send_region, with its text. -/
namespace AipcOs.Rsp
open ByteMemory HexText RspWire Pieces

def transfers (ack : Bool) : List (List Byte) → List (List Byte)
  | [] => []
  | b :: bs => (ackText ack ++ packet b) :: bs.map packet

def consoleBody (text : List Byte) : List Byte := 0x4F :: encode text

def consoleBodies (texts : List (List Byte)) : List (List Byte) :=
  texts.map consoleBody ++ [ascii "OK"]

theorem sendOutput_sent (text : List Byte) (ack : Bool) (o : Out)
    (h : text.length ≤ MONITOR_CHUNK) :
    (sendOutput text ack o).sent = o.sent ++ transfers ack [consoleBody text] := by
  have hbegin := outBeginAck_length ack o
  have hsize : OUT_SIZE = 8208 := rfl
  have hpack : PACKET_SIZE = 8192 := rfl
  have hchunk : MONITOR_CHUNK = 4092 := rfl
  have hbody : (consoleBody text).length ≤ PACKET_SIZE := by
    rw [consoleBody, List.length_cons, encode_length]
    omega
  rw [sendOutput, outCh_put _ _ (by omega), outBytes_put, Out.put_put]
  · exact congrArg Out.sent (outFinish_put ack (consoleBody text) o hbody)
  · rw [Out.put_buf, List.length_append, List.length_singleton]
    omega

theorem sendOk_sent (ack : Bool) (o : Out) :
    (outFinish (outStr (ascii "OK") (outBeginAck ack o))).sent =
      o.sent ++ transfers ack [ascii "OK"] := by
  have hbegin := outBeginAck_length ack o
  have hsize : OUT_SIZE = 8208 := rfl
  have hok : (ascii "OK").length = 2 := rfl
  rw [outStr_put _ _ (by omega), outFinish_put ack _ o (by decide)]
  rfl

theorem transfers_append (ack : Bool) (b : List Byte) (bs : List (List Byte)) :
    transfers ack [b] ++ transfers false bs = transfers ack (b :: bs) := by
  cases bs with
  | nil => rfl
  | cons c cs => rfl

/-- The rest of a region, from any point of the loop on. -/
theorem sendRegionLoop_sent (fuel : Nat) (data : List Byte) (ack : Bool) (o : Out)
    (h : data.length ≤ fuel) :
    (outFinish (outStr (ascii "OK")
      (outBeginAck (sendRegionLoop fuel data ack o).2 (sendRegionLoop fuel data ack o).1))).sent =
      o.sent ++ transfers ack (consoleBodies (pieces MONITOR_CHUNK data)) := by
  have hchunk : MONITOR_CHUNK ≠ 0 := by decide
  have hend : ∀ ack o, (outFinish (outStr (ascii "OK") (outBeginAck ack o))).sent =
      o.sent ++ transfers ack (consoleBodies (pieces MONITOR_CHUNK [])) := by
    intro ack o
    rw [sendOk_sent, pieces_nil]
    rfl
  induction fuel generalizing data ack o with
  | zero =>
    obtain rfl := List.length_eq_zero_iff.mp (Nat.le_zero.mp h)
    exact hend ack o
  | succ fuel ih =>
    rw [sendRegionLoop]
    split
    · rename_i hnil
      rw [hnil]
      exact hend ack o
    · rename_i hne
      have hpos := List.length_pos_iff.mpr hne
      have hrest : (data.drop MONITOR_CHUNK).length ≤ fuel := by
        rw [List.length_drop]
        omega
      rw [ih _ _ _ hrest, sendOutput_sent _ _ _ (List.length_take_le _ _), List.append_assoc,
        transfers_append, pieces_of_ne_nil hchunk hne]
      rfl

theorem sendRegion_sent (data : List Byte) (o : Out) :
    (sendRegion data o).sent =
      o.sent ++ transfers true (consoleBodies (pieces MONITOR_CHUNK data)) :=
  sendRegionLoop_sent data.length data true o le_rfl

def payload? : List Byte → Option (List Byte)
  | [] => none
  | c :: text => if c = 0x4F then decode text else none

theorem payload?_consoleBody (text : List Byte) : payload? (consoleBody text) = some text :=
  decode_encode text

theorem mapM_payload? (texts : List (List Byte)) :
    (texts.map consoleBody).mapM payload? = some texts := by
  induction texts with
  | nil => rfl
  | cons t ts ih => simp [List.mapM_cons, payload?_consoleBody, ih]

end AipcOs.Rsp
