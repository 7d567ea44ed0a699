import AipcOs.ByteMemory
import AipcOs.Histories
import AipcOs.Pieces

/-! Endpoint 0 of the MUSB device: control requests, their data stages, and what the host sees
of them. -/
namespace AipcOs.MusbEp0
open ByteMemory Histories Pieces

def EP0_MAXP : Nat := 64
def EP0_STAGE : Nat := 64
def EP0_BUF_SIZE : Nat := 128
def BULK_MAXP_HS : BitVec 16 := 512
def BULK_MAXP_FS : BitVec 16 := 64
def POWER_HSMODE : Byte := (1 : Byte) <<< 4
def CSR0_RXPKTRDY : Byte := (1 : Byte) <<< 0
def CSR0_TXPKTRDY : Byte := (1 : Byte) <<< 1
def CSR0_SENTSTALL : Byte := (1 : Byte) <<< 2
def CSR0_SETUPEND : Byte := (1 : Byte) <<< 4

def deviceDesc : List Byte :=
  [18, 1, 0x00, 0x02, 0x02, 0x00, 0x00, 64, 0x09, 0x12, 0x01, 0x00, 0x00, 0x01, 0, 1, 2, 1]

def qualifierDesc : List Byte := [10, 6, 0x00, 0x02, 0x02, 0x00, 0x00, 64, 1, 0]

def stringLangid : List Byte := [4, 3, 0x09, 0x04]

def stringProduct : List Byte :=
  [26, 3, 0x61, 0, 0x69, 0, 0x70, 0, 0x63, 0, 0x20, 0, 0x67, 0, 0x64, 0, 0x62, 0, 0x73, 0, 0x74, 0,
   0x75, 0, 0x62, 0]

def stringSerial : List Byte := [10, 3, 0x30, 0, 0x30, 0, 0x30, 0, 0x31, 0]

/-- The template. Its type and its bulk packet sizes are patched in for each request. -/
def configTemplate : List Byte :=
  [9, 2, 67, 0, 2, 1, 0, 0xC0, 0x01,
   9, 4, 0, 0, 1, 0x02, 0x02, 0x01, 0,
   5, 0x24, 0x00, 0x10, 0x01,
   5, 0x24, 0x01, 0x00, 1,
   4, 0x24, 0x02, 0x02,
   5, 0x24, 0x06, 0, 1,
   7, 5, 0x81, 3, 16, 0, 9,
   9, 4, 1, 0, 2, 0x0A, 0x00, 0x00, 0,
   7, 5, 3, 2, 0, 0, 0,
   7, 5, 0x82, 2, 0, 0, 0]

def CFG_BULK_OUT_MAXP : Nat := 57
def CFG_BULK_IN_MAXP : Nat := 64

def patchConfig (type : Byte) (maxp : BitVec 16) (buf : List Byte) : List Byte :=
  ((((buf.set 1 type).set CFG_BULK_IN_MAXP (maxp.setWidth 8)).set (CFG_BULK_IN_MAXP + 1)
    ((maxp >>> 8).setWidth 8)).set CFG_BULK_OUT_MAXP (maxp.setWidth 8)).set (CFG_BULK_OUT_MAXP + 1)
    ((maxp >>> 8).setWidth 8)

structure Dev where
  ep0_buf : List Byte
  ep0_remaining : Nat
  ep0_offset : Nat
  ep0_out_remaining : Nat
  ep0_out_offset : Nat
  line_coding : List Byte
  line_state : BitVec 16
  high_speed : Bool

inductive Action where
  | ack
  | chunk (bytes : List Byte)
  | status
  | stall
  | address (a : Byte)
  | clearToggles
  deriving DecidableEq

structure Setup where
  bmRequestType : Byte
  bRequest : Byte
  wValue : BitVec 16
  wLength : Nat

def parseSetup (l2 : Nat → Byte) : Setup :=
  ⟨l2 0, l2 1, l2 3 ++ l2 2, (l2 6).toNat + 256 * (l2 7).toNat⟩

inductive Answer where
  | data (bytes : List Byte)
  | config (type : Byte) (maxp : BitVec 16)
  | status
  | lineState (v : BitVec 16)
  | address (a : Byte)
  | configure
  | expectOut
  | stall
  deriving DecidableEq

def Dev.bulkMaxp (d : Dev) : BitVec 16 := if d.high_speed then BULK_MAXP_HS else BULK_MAXP_FS

def classAnswer (d : Dev) (s : Setup) : Answer :=
  if s.bRequest = 0x20 then if s.wLength ≠ 0 then .expectOut else .status
  else if s.bRequest = 0x21 then .data d.line_coding
  else if s.bRequest = 0x22 then .lineState s.wValue
  else if s.bRequest = 0x23 then .status
  else .stall

def descriptorAnswer (d : Dev) (s : Setup) : Answer :=
  if s.wValue >>> 8 = 1 then .data deviceDesc
  else if s.wValue >>> 8 = 2 then .config 2 d.bulkMaxp
  else if s.wValue >>> 8 = 3 then
    if s.wValue &&& 0xFF = 0 then .data stringLangid
    else if s.wValue &&& 0xFF = 1 then .data stringProduct
    else if s.wValue &&& 0xFF = 2 then .data stringSerial
    else .stall
  else if s.wValue >>> 8 = 6 then .data qualifierDesc
  else if s.wValue >>> 8 = 7 then .config 7 (if d.high_speed then BULK_MAXP_FS else BULK_MAXP_HS)
  else .stall

def answerTo (d : Dev) (s : Setup) : Answer :=
  if s.bmRequestType &&& 0x60 = 0x20 then classAnswer d s
  else if s.bmRequestType &&& 0x60 ≠ 0 then .stall
  else if s.bRequest = 0 then .data [1, 0]
  else if s.bRequest = 5 then .address ((s.wValue &&& 0x7F).setWidth 8)
  else if s.bRequest = 6 then descriptorAnswer d s
  else if s.bRequest = 8 then .data [1]
  else if s.bRequest = 9 then .configure
  else if s.bRequest = 1 ∨ s.bRequest = 3 ∨ s.bRequest = 11 then .status
  else if s.bRequest = 10 then .data [0]
  else .stall

def ep0SendChunk (d : Dev) : Dev × List Action :=
  if d.ep0_remaining = 0 then ({ d with ep0_offset := 0 }, [.status])
  else
    let staged := (d.ep0_buf.drop d.ep0_offset).take EP0_STAGE
    if d.ep0_remaining ≤ EP0_MAXP then
      ({ d with ep0_remaining := 0, ep0_offset := 0 }, [.chunk (staged.take d.ep0_remaining)])
    else
      ({ d with ep0_remaining := d.ep0_remaining - EP0_MAXP,
                ep0_offset := d.ep0_offset + EP0_MAXP }, [.chunk (staged.take EP0_MAXP)])

def fillLength (data : List Byte) (wLength : Nat) : Nat :=
  min (min data.length wLength) EP0_BUF_SIZE

def ep0Fill (d : Dev) (data : List Byte) (wLength : Nat) : Dev :=
  { d with
    ep0_buf := data.take (fillLength data wLength) ++
      List.replicate (EP0_BUF_SIZE - fillLength data wLength) 0
    ep0_remaining := fillLength data wLength
    ep0_offset := 0 }

def ep0Start (d : Dev) : Dev × List Action :=
  ((ep0SendChunk d).1, .ack :: (ep0SendChunk d).2)

def ep0Queue (d : Dev) (data : List Byte) (wLength : Nat) : Dev × List Action :=
  ep0Start (ep0Fill d data wLength)

def ep0QueueConfig (d : Dev) (type : Byte) (maxp : BitVec 16) (wLength : Nat) :
    Dev × List Action :=
  let d' := ep0Fill d configTemplate wLength
  ep0Start { d' with ep0_buf := patchConfig type maxp d'.ep0_buf }

def ep0Status (d : Dev) : Dev × List Action :=
  ({ d with ep0_remaining := 0, ep0_offset := 0 }, [.status])

def ep0ExpectOut (d : Dev) (wLength : Nat) : Dev × List Action :=
  ({ d with ep0_remaining := 0, ep0_offset := 0, ep0_out_remaining := wLength,
            ep0_out_offset := 0 }, [.ack])

def ep0Stall (d : Dev) : Dev × List Action := (d, [.stall])

def perform (d : Dev) (wLength : Nat) : Answer → Dev × List Action
  | .data bytes => ep0Queue d bytes wLength
  | .config type maxp => ep0QueueConfig d type maxp wLength
  | .status => ep0Status d
  | .lineState v => ep0Status { d with line_state := v }
  | .address a => ((ep0Status d).1, (ep0Status d).2 ++ [.address a])
  | .configure => ((ep0Status d).1, .clearToggles :: (ep0Status d).2)
  | .expectOut => ep0ExpectOut d wLength
  | .stall => ep0Stall d

def handleSetup (d : Dev) (s : Setup) : Dev × List Action := perform d s.wLength (answerTo d s)

def takeLineCoding (l2 : Nat → Byte) : Nat → Nat → Dev → Dev
  | 0, _, d => d
  | n + 1, i, d =>
    if d.ep0_out_offset < d.line_coding.length then
      takeLineCoding l2 n (i + 1) { d with line_coding := d.line_coding.set d.ep0_out_offset (l2 i),
                                           ep0_out_offset := d.ep0_out_offset + 1 }
    else d

def handleEp0Out (d : Dev) (count : Nat) (l2 : Nat → Byte) : Dev × List Action :=
  let d' := takeLineCoding l2 count 0 d
  let left := if count ≥ d'.ep0_out_remaining then 0 else d'.ep0_out_remaining - count
  ({ d' with ep0_out_remaining := left }, [if left ≠ 0 then .ack else .status])

def handleBusReset (d : Dev) (power : Byte) : Dev :=
  { d with high_speed := power &&& POWER_HSMODE != 0, ep0_remaining := 0, ep0_offset := 0,
           ep0_out_remaining := 0 }

/-- The token of a received packet. The driver does not see it. -/
inductive Token where
  | setup
  | out
  deriving DecidableEq

structure Poll where
  reset : Bool
  power : Byte
  ep0 : Bool
  csr : Byte
  token : Token
  count : Byte
  l2 : Nat → Byte

inductive Event where
  | reset (power : Byte)
  | setupEnd
  | sentStall
  | packet (token : Token) (count : Nat) (l2 : Nat → Byte)
  | txDone
  | nothing

def eventOf (p : Poll) : Event :=
  if p.reset then .reset p.power
  else if ¬ p.ep0 then .nothing
  else if p.csr &&& CSR0_SETUPEND ≠ 0 then .setupEnd
  else if p.csr &&& CSR0_SENTSTALL ≠ 0 then .sentStall
  else if p.csr &&& CSR0_RXPKTRDY ≠ 0 then .packet p.token (p.count &&& 0x7F).toNat p.l2
  else if p.csr &&& CSR0_TXPKTRDY = 0 then .txDone
  else .nothing

def handleEvent (d : Dev) : Event → Dev × List Action
  | .reset power => (handleBusReset d power, [])
  | .setupEnd => ({ d with ep0_out_remaining := 0 }, [])
  | .sentStall => (d, [])
  | .packet _ count l2 =>
    if d.ep0_out_remaining ≠ 0 then handleEp0Out d count l2 else handleSetup d (parseSetup l2)
  | .txDone => if d.ep0_remaining ≠ 0 then ep0SendChunk d else (d, [])
  | .nothing => (d, [])

def musbPoll (d : Dev) (p : Poll) : Dev × List Action := handleEvent d (eventOf p)

def replyOf : Answer → List Byte
  | .data bytes => bytes
  | .config type maxp => patchConfig type maxp configTemplate
  | _ => []

/-- What a host sees: a SETUP with the data its answer promises, none where it is stalled, the
end of a transfer, a bus reset, and the chunks. -/
inductive Wire where
  | setup (data : Option (List Byte))
  | abort
  | reset
  | chunk (bytes : List Byte)
  deriving DecidableEq

def promised (d : Dev) (s : Setup) : Option (List Byte) :=
  match answerTo d s with
  | .stall => none
  | a => some ((replyOf a).take s.wLength)

def mark (d : Dev) : Event → List Wire
  | .reset _ => [.reset]
  | .setupEnd => [.abort]
  | .packet .setup _ l2 => [.setup (promised d (parseSetup l2))]
  | _ => []

def wireOf : Action → Option Wire
  | .chunk bytes => some (.chunk bytes)
  | _ => none

structure Run where
  dev : Dev
  wire : List Wire

def Run.step (s : Run) (p : Poll) : Run :=
  ⟨(musbPoll s.dev p).1,
   s.wire ++ mark s.dev (eventOf p) ++ (musbPoll s.dev p).2.filterMap wireOf⟩

def Run.steps (s : Run) (ps : List Poll) : Run := ps.foldl Run.step s

def fresh (highSpeed : Bool) : Run :=
  ⟨⟨List.replicate EP0_BUF_SIZE 0, 0, 0, 0, 0, [0x00, 0xC2, 0x01, 0x00, 0, 0, 8], 0, highSpeed⟩, []⟩

/-- Every chunk follows the SETUP it answers, with nothing in between but the chunks before it,
and these are the first pieces of the promised data. -/
def Owned (wire : List Wire) : Prop :=
  ∀ pre c post, wire = pre ++ .chunk c :: post → ∃ before data sent,
    pre = before ++ .setup (some data) :: sent.map Wire.chunk ∧
    sent ++ [c] <+: pieces EP0_MAXP data

structure Transfer (d : Dev) (wire : List Wire) : Prop where
  room : d.ep0_offset + d.ep0_remaining ≤ d.ep0_buf.length
  current : ∃ before data sent, wire = before ++ .setup (some data) :: sent.map Wire.chunk ∧
    pieces EP0_MAXP data =
      sent ++ pieces EP0_MAXP ((d.ep0_buf.drop d.ep0_offset).take d.ep0_remaining)

structure Inv (s : Run) : Prop where
  line : s.dev.line_coding.length = 7
  stage : s.dev.ep0_out_remaining ≠ 0 → s.dev.ep0_remaining = 0
  owned : Owned s.wire
  transfer : s.dev.ep0_remaining ≠ 0 → Transfer s.dev s.wire

theorem owned_nil : Owned [] := by
  intro pre c post h
  have := congrArg List.length h
  simp at this

theorem Owned.snoc {wire : List Wire} (h : Owned wire) {w : Wire}
    (hw : ∀ c, w = .chunk c → ∃ before data sent,
      wire = before ++ .setup (some data) :: sent.map Wire.chunk ∧
      sent ++ [c] <+: pieces EP0_MAXP data) : Owned (wire ++ [w]) := by
  intro pre c post heq
  obtain ⟨rfl, hlast⟩ | ⟨rest, hold⟩ := entry_of_snoc heq
  · exact hw c hlast.symm
  · exact h pre c rest hold

def Dev.left (d : Dev) : List Byte := (d.ep0_buf.drop d.ep0_offset).take d.ep0_remaining

theorem ep0SendChunk_chunk {d : Dev} (hr : d.ep0_remaining ≠ 0) :
    (ep0SendChunk d).2 = [.chunk (d.left.take EP0_MAXP)] := by
  unfold ep0SendChunk Dev.left
  rw [if_neg hr]
  simp only [List.take_take]
  split
  · next h =>
    rw [Nat.min_comm]
    rfl
  · next h =>
    rw [Nat.min_eq_left (not_le.mp h).le]
    rfl

theorem ep0SendChunk_left {d : Dev} (hr : d.ep0_remaining ≠ 0)
    (hmore : (ep0SendChunk d).1.ep0_remaining ≠ 0) :
    (ep0SendChunk d).1.left = d.left.drop EP0_MAXP ∧
    (ep0SendChunk d).1.ep0_offset + (ep0SendChunk d).1.ep0_remaining =
      d.ep0_offset + d.ep0_remaining ∧
    (ep0SendChunk d).1.ep0_buf = d.ep0_buf := by
  unfold ep0SendChunk Dev.left at *
  rw [if_neg hr] at hmore ⊢
  by_cases hlast : d.ep0_remaining ≤ EP0_MAXP
  · simp only [if_pos hlast] at hmore
    exact absurd rfl hmore
  · simp only [if_neg hlast]
    refine ⟨?_, by omega, trivial⟩
    rw [List.drop_take, List.drop_drop]

theorem ep0SendChunk_frame (d : Dev) :
    (ep0SendChunk d).1.line_coding = d.line_coding ∧
      (ep0SendChunk d).1.ep0_out_remaining = d.ep0_out_remaining := by
  unfold ep0SendChunk
  split
  · exact ⟨rfl, rfl⟩
  · simp only
    split <;> exact ⟨rfl, rfl⟩

/-- Sending a chunk takes the next piece of the transfer. -/
theorem Transfer.send {d : Dev} {wire : List Wire} (h : Transfer d wire)
    (hline : d.line_coding.length = 7) (hout : d.ep0_out_remaining = 0) (howned : Owned wire)
    (hr : d.ep0_remaining ≠ 0) :
    Inv ⟨(ep0SendChunk d).1, wire ++ (ep0SendChunk d).2.filterMap wireOf⟩ := by
  obtain ⟨hroom, before, data, sent, hwire, hpieces⟩ := h
  have hlen : d.left.length = d.ep0_remaining := by
    rw [Dev.left, List.length_take, List.length_drop]
    omega
  have hne : d.left ≠ [] := by
    intro h0
    rw [h0] at hlen
    exact hr hlen.symm
  have hcut : pieces EP0_MAXP data =
      sent ++ [d.left.take EP0_MAXP] ++ pieces EP0_MAXP (d.left.drop EP0_MAXP) := by
    rw [hpieces, List.append_assoc, List.singleton_append]
    exact congrArg _ (pieces_of_ne_nil (by decide) hne)
  have hwire' : wire ++ (ep0SendChunk d).2.filterMap wireOf =
      wire ++ [.chunk (d.left.take EP0_MAXP)] := by
    rw [ep0SendChunk_chunk hr]
    rfl
  rw [hwire']
  obtain ⟨hline', hout'⟩ := ep0SendChunk_frame d
  refine ⟨by rw [hline', hline], fun hne => absurd (hout'.trans hout) hne, howned.snoc ?_, ?_⟩
  · intro c hc
    cases hc
    exact ⟨before, data, sent, hwire, ⟨_, hcut.symm⟩⟩
  · intro hmore
    obtain ⟨hleft, hsum, hbuf⟩ := ep0SendChunk_left hr hmore
    refine ⟨?_, before, data, sent ++ [d.left.take EP0_MAXP], ?_, ?_⟩
    · rw [hsum, hbuf]
      exact hroom
    · rw [hwire, List.map_append, List.append_assoc]
      rfl
    · rw [hcut, ← hleft]
      rfl

/-- A fresh transfer starts its data with the first chunk. -/
theorem start_inv {d : Dev} {wire : List Wire} {data : List Byte}
    (hline : d.line_coding.length = 7) (hout : d.ep0_out_remaining = 0) (howned : Owned wire)
    (hroom : d.ep0_offset + d.ep0_remaining ≤ d.ep0_buf.length) (hleft : d.left = data) :
    Inv ⟨(ep0Start d).1, wire ++ [.setup (some data)] ++ (ep0Start d).2.filterMap wireOf⟩ := by
  have hsetup : Owned (wire ++ [.setup (some data)]) := howned.snoc (fun c hc => by cases hc)
  have hwire : (ep0Start d).2.filterMap wireOf = (ep0SendChunk d).2.filterMap wireOf := rfl
  rw [hwire]
  by_cases hr : d.ep0_remaining = 0
  · have hsend : ep0SendChunk d = ({ d with ep0_offset := 0 }, [.status]) := by
      rw [ep0SendChunk, if_pos hr]
    have hdone : (ep0Start d).1.ep0_remaining = 0 := by
      change (ep0SendChunk d).1.ep0_remaining = 0
      rw [hsend]
      exact hr
    refine ⟨?_, fun _ => hdone, ?_, fun hne => absurd hdone hne⟩
    · change (ep0SendChunk d).1.line_coding.length = 7
      rw [(ep0SendChunk_frame d).1, hline]
    · rw [hsend]
      change Owned (wire ++ [.setup (some data)] ++ [])
      rw [List.append_nil]
      exact hsetup
  · have htransfer : Transfer d (wire ++ [.setup (some data)]) :=
      ⟨hroom, wire, data, [], rfl, by rw [← hleft]; rfl⟩
    exact htransfer.send hline hout hsetup hr

theorem take_fillLength (data : List Byte) (wLength : Nat) (hdata : data.length ≤ EP0_BUF_SIZE) :
    data.take (fillLength data wLength) = data.take wLength ∧
      (data.take (fillLength data wLength)).length = fillLength data wLength := by
  have hlen : fillLength data wLength = min data.length wLength := by
    unfold fillLength
    omega
  rw [hlen]
  refine ⟨?_, ?_⟩
  · rw [Nat.min_comm, ← List.take_take, List.take_length]
  · rw [List.length_take]
    omega

theorem fill_left (d : Dev) (data : List Byte) (wLength : Nat) (hdata : data.length ≤ EP0_BUF_SIZE) :
    (ep0Fill d data wLength).left = data.take wLength ∧
    (ep0Fill d data wLength).ep0_offset + (ep0Fill d data wLength).ep0_remaining ≤
      (ep0Fill d data wLength).ep0_buf.length := by
  obtain ⟨hcut, hlen⟩ := take_fillLength data wLength hdata
  simp only [Dev.left, ep0Fill, List.drop_zero]
  refine ⟨?_, ?_⟩
  · rw [List.take_left' hlen, hcut]
  · rw [List.length_append, hlen]
    omega

theorem patchConfig_take (type : Byte) (maxp : BitVec 16) (n : Nat) (buf : List Byte) :
    (patchConfig type maxp buf).take n = patchConfig type maxp (buf.take n) := by
  simp only [patchConfig, List.take_set]

theorem patchConfig_length (type : Byte) (maxp : BitVec 16) (buf : List Byte) :
    (patchConfig type maxp buf).length = buf.length := by
  simp only [patchConfig, List.length_set]

theorem config_left (d : Dev) (type : Byte) (maxp : BitVec 16) (wLength : Nat) :
    let d' := ep0Fill d configTemplate wLength
    ({ d' with ep0_buf := patchConfig type maxp d'.ep0_buf } : Dev).left =
      (patchConfig type maxp configTemplate).take wLength ∧
    d'.ep0_offset + d'.ep0_remaining ≤ (patchConfig type maxp d'.ep0_buf).length := by
  obtain ⟨hcut, hlen⟩ := take_fillLength configTemplate wLength (by decide)
  simp only [Dev.left, ep0Fill, List.drop_zero, patchConfig_length]
  refine ⟨?_, ?_⟩
  · rw [patchConfig_take, List.take_left' hlen, hcut, patchConfig_take]
  · rw [List.length_append, hlen]
    omega

def Fits (a : Answer) : Prop := ∀ bytes, a = .data bytes → bytes.length ≤ EP0_BUF_SIZE

theorem fits_ite {c : Prop} [Decidable c] {a b : Answer} (ha : Fits a) (hb : Fits b) :
    Fits (if c then a else b) := by
  split
  · exact ha
  · exact hb

theorem fits_data {bytes : List Byte} (h : bytes.length ≤ EP0_BUF_SIZE) : Fits (.data bytes) := by
  intro bytes' heq
  cases heq
  exact h

theorem fits_other {a : Answer} (h : ∀ bytes, a ≠ .data bytes) : Fits a :=
  fun bytes heq => absurd heq (h bytes)

theorem descriptorAnswer_fits (d : Dev) (s : Setup) : Fits (descriptorAnswer d s) := by
  have hstall : Fits .stall := fits_other (fun _ h => by cases h)
  have hconfig : ∀ type maxp, Fits (.config type maxp) :=
    fun _ _ => fits_other (fun _ h => by cases h)
  refine fits_ite (fits_data (by decide)) (fits_ite (hconfig _ _) (fits_ite ?_
    (fits_ite (fits_data (by decide)) (fits_ite (hconfig _ _) hstall))))
  exact fits_ite (fits_data (by decide)) (fits_ite (fits_data (by decide))
    (fits_ite (fits_data (by decide)) hstall))

theorem answerTo_fits (d : Dev) (s : Setup) (hline : d.line_coding.length = 7) :
    Fits (answerTo d s) := by
  have hstall : Fits .stall := fits_other (fun _ h => by cases h)
  have hstatus : Fits .status := fits_other (fun _ h => by cases h)
  have hcoding : Fits (.data d.line_coding) := fits_data (by rw [hline]; decide)
  have hclass : Fits (classAnswer d s) :=
    fits_ite (fits_ite (fits_other (fun _ h => by cases h)) hstatus) (fits_ite hcoding
      (fits_ite (fits_other (fun _ h => by cases h)) (fits_ite hstatus hstall)))
  refine fits_ite hclass (fits_ite hstall (fits_ite (fits_data (by decide)) (fits_ite ?_
    (fits_ite (descriptorAnswer_fits d s) (fits_ite (fits_data (by decide)) (fits_ite ?_
      (fits_ite hstatus (fits_ite (fits_data (by decide)) hstall))))))))
  · exact fits_other (fun _ h => by cases h)
  · exact fits_other (fun _ h => by cases h)

/-- A step that leaves no transfer in progress and sends nothing. -/
theorem quiet_inv {d : Dev} {wire marks : List Wire} (hline : d.line_coding.length = 7)
    (howned : Owned (wire ++ marks)) {actions : List Action} (hsent : actions.filterMap wireOf = [])
    (hdone : d.ep0_remaining = 0) : Inv ⟨d, wire ++ marks ++ actions.filterMap wireOf⟩ := by
  rw [hsent, List.append_nil]
  exact ⟨hline, fun _ => hdone, howned, fun hne => absurd hdone hne⟩

theorem Inv.setup {s : Run} (h : Inv s) (hout : s.dev.ep0_out_remaining = 0) (q : Setup)
    (hstall : answerTo s.dev q = .stall → s.dev.ep0_remaining = 0) :
    Inv ⟨(handleSetup s.dev q).1,
      s.wire ++ [.setup (promised s.dev q)] ++ (handleSetup s.dev q).2.filterMap wireOf⟩ := by
  have howned : ∀ data, Owned (s.wire ++ [.setup data]) :=
    fun data => h.owned.snoc (fun c hc => by cases hc)
  unfold handleSetup promised
  cases ha : answerTo s.dev q with
  | data bytes =>
    obtain ⟨hleft, hroom⟩ := fill_left s.dev bytes q.wLength (answerTo_fits s.dev q h.line bytes ha)
    have hline : (ep0Fill s.dev bytes q.wLength).line_coding.length = 7 := h.line
    exact start_inv hline hout h.owned hroom hleft
  | config type maxp =>
    obtain ⟨hleft, hroom⟩ := config_left s.dev type maxp q.wLength
    exact start_inv h.line hout h.owned hroom hleft
  | status =>
    refine quiet_inv ?_ (howned _) rfl rfl
    exact h.line
  | lineState v =>
    refine quiet_inv ?_ (howned _) rfl rfl
    exact h.line
  | address a =>
    refine quiet_inv ?_ (howned _) rfl rfl
    exact h.line
  | configure =>
    refine quiet_inv ?_ (howned _) rfl rfl
    exact h.line
  | expectOut =>
    refine quiet_inv ?_ (howned _) rfl rfl
    exact h.line
  | stall => exact quiet_inv h.line (howned _) rfl (hstall ha)

theorem takeLineCoding_frame (l2 : Nat → Byte) (n i : Nat) (d : Dev) :
    (takeLineCoding l2 n i d).line_coding.length = d.line_coding.length ∧
    (takeLineCoding l2 n i d).ep0_buf = d.ep0_buf ∧
    (takeLineCoding l2 n i d).ep0_remaining = d.ep0_remaining ∧
    (takeLineCoding l2 n i d).ep0_offset = d.ep0_offset := by
  induction n generalizing i d with
  | zero => exact ⟨rfl, rfl, rfl, rfl⟩
  | succ n ih =>
    unfold takeLineCoding
    split
    · obtain ⟨hline, hbuf, hrem, hoff⟩ := ih (i + 1) { d with
        line_coding := d.line_coding.set d.ep0_out_offset (l2 i),
        ep0_out_offset := d.ep0_out_offset + 1 }
      exact ⟨hline.trans (List.length_set ..), hbuf, hrem, hoff⟩
    · exact ⟨rfl, rfl, rfl, rfl⟩

/-- The condition on a step: a transfer that is aborted or stalled has nothing left to send, and
data packets arrive in a data stage. -/
def Meets (d : Dev) : Event → Prop
  | .setupEnd => d.ep0_remaining = 0
  | .packet .setup _ l2 => d.ep0_out_remaining = 0 → answerTo d (parseSetup l2) = .stall →
      d.ep0_remaining = 0
  | .packet .out _ _ => d.ep0_out_remaining ≠ 0
  | _ => True

def MeetsAll (s : Run) : List Poll → Prop
  | [] => True
  | p :: ps => Meets s.dev (eventOf p) ∧ MeetsAll (s.step p) ps

theorem wireOf_reply (c : Prop) [Decidable c] :
    [if c then Action.ack else Action.status].filterMap wireOf = [] := by
  split <;> rfl

theorem Inv.step {s : Run} (h : Inv s) (p : Poll) (hmeets : Meets s.dev (eventOf p)) :
    Inv (s.step p) := by
  unfold Run.step musbPoll
  generalize eventOf p = e at hmeets
  cases e with
  | reset power =>
    refine quiet_inv ?_ (h.owned.snoc fun c hc => by cases hc) rfl rfl
    exact h.line
  | setupEnd =>
    refine quiet_inv ?_ (h.owned.snoc fun c hc => by cases hc) rfl ?_
    · exact h.line
    · exact hmeets
  | sentStall =>
    simpa [handleEvent, mark] using h
  | nothing =>
    simpa [handleEvent, mark] using h
  | txDone =>
    unfold handleEvent
    by_cases hr : s.dev.ep0_remaining = 0
    · simpa [hr, mark] using h
    · simp only [if_pos hr, mark, List.append_nil]
      have hout : s.dev.ep0_out_remaining = 0 := by
        by_contra hne
        exact hr (h.stage hne)
      exact (h.transfer hr).send h.line hout h.owned hr
  | packet token count l2 =>
    by_cases hout : s.dev.ep0_out_remaining = 0
    · have hsetup : handleEvent s.dev (.packet token count l2) =
          handleSetup s.dev (parseSetup l2) := if_neg (not_not.mpr hout)
      rw [hsetup]
      cases token with
      | setup => exact h.setup hout (parseSetup l2) (hmeets hout)
      | out => exact absurd hout hmeets
    · have hdata : handleEvent s.dev (.packet token count l2) = handleEp0Out s.dev count l2 :=
        if_pos hout
      have hsent : (handleEp0Out s.dev count l2).2.filterMap wireOf = [] := wireOf_reply _
      obtain ⟨hline, -, hrem, -⟩ := takeLineCoding_frame l2 count 0 s.dev
      have hdone := hrem.trans (h.stage hout)
      rw [hdata]
      refine quiet_inv ?_ ?_ hsent ?_
      · exact hline.trans h.line
      · cases token with
        | setup => exact h.owned.snoc (fun c hc => by cases hc)
        | out => simpa [mark] using h.owned
      · exact hdone

theorem fresh_inv (highSpeed : Bool) : Inv (fresh highSpeed) :=
  ⟨rfl, fun _ => rfl, owned_nil, fun hne => absurd rfl hne⟩

theorem Inv.steps {s : Run} (h : Inv s) (ps : List Poll) (hmeets : MeetsAll s ps) :
    Inv (s.steps ps) := by
  induction ps generalizing s with
  | nil => exact h
  | cons p ps ih => exact ih (h.step p hmeets.1) hmeets.2

/-- In every run that meets the condition, every chunk belongs to the current request. -/
theorem ep0_chunks_owned (highSpeed : Bool) (ps : List Poll) (hmeets : MeetsAll (fresh highSpeed) ps) :
    Owned ((fresh highSpeed).steps ps).wire :=
  ((fresh_inv highSpeed).steps ps hmeets).owned

def ep0Poll (csr : Byte) (packet : List Byte) : Poll :=
  ⟨false, 0, true, csr, .setup, BitVec.ofNat 8 packet.length, fun i => packet.getD i 0⟩

def getConfiguration : Poll := ep0Poll CSR0_RXPKTRDY [0x80, 6, 0, 2, 0, 0, 255, 0]

theorem ep0_chunks_owned_config :
    Owned ((fresh true).steps [getConfiguration, ep0Poll 0 []]).wire := by
  refine ep0_chunks_owned true _ ⟨?_, trivial, trivial⟩
  exact fun _ h => absurd h (by decide)

/-- The host ends the transfer after its first packet, and the second packet still goes out. -/
theorem ep0_sends_aborted :
    ¬ ∀ (highSpeed : Bool) (ps : List Poll), Owned ((fresh highSpeed).steps ps).wire := by
  intro h
  have howned := h true [getConfiguration, ep0Poll CSR0_SETUPEND [], ep0Poll 0 []]
  have hwire : ((fresh true).steps [getConfiguration, ep0Poll CSR0_SETUPEND [], ep0Poll 0 []]).wire =
      [.setup (some (patchConfig 2 512 configTemplate)),
       .chunk ((patchConfig 2 512 configTemplate).take 64), .abort] ++
        .chunk ((patchConfig 2 512 configTemplate).drop 64) :: [] := by decide +kernel
  obtain ⟨before, data, sent, heq, -⟩ := howned _ _ _ hwire
  rcases List.eq_nil_or_concat sent with rfl | ⟨init, c, rfl⟩
  · have hlast := congrArg List.getLast? heq
    simp at hlast
  · rw [List.concat_eq_append, List.map_append, ← List.cons_append, ← List.append_assoc] at heq
    have hlast := congrArg List.getLast? heq
    rw [List.map_singleton, List.getLast?_concat] at hlast
    cases hlast

end AipcOs.MusbEp0
