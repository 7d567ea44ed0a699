import AipcOs.ByteMemory
import AipcOs.Pieces

/-! Downloads over the USB boot protocol. Commands and data share one bulk stream; the device
tells them apart by the content of each packet. -/
namespace AipcOs.UsbBoot
open ByteMemory Pieces

def FRAME_SIZE : Nat := 16384
def PACKET_SIZE : Nat := 64
def SYNC_BYTE : Byte := 0x60
def HEADER_MAGIC : List Byte := [0x52, 0x00]
def TAIL_MAGIC : List Byte := [0x13, 0x14]

def OPCODE_WRITE32 : Byte := 0x1F
def OPCODE_DOWNLOAD_DONE : Byte := 0x3C
def OPCODE_DOWNLOAD_BEGIN : Byte := 0x3F
def OPCODE_EXECUTE : Byte := 0x9F

/-- `struct.pack_into('<I', ...)`, which raises on a value of more than 32 bits. -/
def packU32 (v : Nat) : Option (List Byte) :=
  if v < 2 ^ 32 then some (wordBytes (BitVec.ofNat 32 v)) else none

def frameBytes (opcode : Byte) (addr arg0 arg1 : List Byte) : List Byte :=
  List.replicate 28 SYNC_BYTE ++ List.replicate 2 0 ++ HEADER_MAGIC ++ List.replicate 17 0 ++
    [opcode] ++ addr ++ arg0 ++ arg1 ++ TAIL_MAGIC

def buildCmdFrame (opcode : Byte) (addr arg0 arg1 : Nat) : Option (List Byte) := do
  let addr ← packU32 addr
  let arg0 ← packU32 arg0
  let arg1 ← packU32 arg1
  pure (frameBytes opcode addr arg0 arg1)

def padded (data : List Byte) : List Byte :=
  if data.length % 4 ≠ 0 then data ++ List.replicate (4 - data.length % 4) 0 else data

/-- The bulk writes of `write_mem`, or nothing where it raises before the first one. -/
def writeMem (addr : Nat) (data : List Byte) : Option (List (List Byte)) := do
  let begin ← buildCmdFrame OPCODE_DOWNLOAD_BEGIN addr (padded data).length 0
  let done ← buildCmdFrame OPCODE_DOWNLOAD_DONE 0 0 0
  pure (begin :: pieces FRAME_SIZE (padded data) ++ [done])

structure Cmd where
  opcode : Byte
  addr : Word
  arg0 : Word
  arg1 : Word
  deriving DecidableEq

/-- `session` is the next address of an open download, `seen` the commands taken so far. -/
structure Device where
  mem : Mem
  session : Option Word
  seen : List Cmd

def isCommand (p : List Byte) : Bool :=
  p.length == PACKET_SIZE && p.take 28 == List.replicate 28 SYNC_BYTE &&
    (p.drop 0x1E).take 2 == HEADER_MAGIC && (p.drop 0x3E).take 2 == TAIL_MAGIC

def u32At (p : List Byte) (i : Nat) : Word :=
  leWord (p.getD i 0) (p.getD (i + 1) 0) (p.getD (i + 2) 0) (p.getD (i + 3) 0)

def parseCmd (p : List Byte) : Cmd := ⟨p.getD 0x31 0, u32At p 0x32, u32At p 0x36, u32At p 0x3A⟩

/-- Data is stored in 4-byte steps, so a ragged end drags unknown bytes along. -/
def stepBytes (fill : Byte) (p : List Byte) : List Byte :=
  p ++ List.replicate ((4 - p.length % 4) % 4) fill

/-- `execute` stands for what the program at an address does to memory. -/
def handleCmd (execute : Word → Mem → Mem) (d : Device) (c : Cmd) : Device :=
  if c.opcode = OPCODE_DOWNLOAD_BEGIN then { d with session := some c.addr }
  else if c.opcode = OPCODE_DOWNLOAD_DONE then { d with session := none }
  else if c.opcode = OPCODE_WRITE32 then { d with mem := storeWord d.mem c.addr c.arg1 }
  else if c.opcode = OPCODE_EXECUTE then { d with mem := execute c.addr d.mem }
  else d

def receive (execute : Word → Mem → Mem) (fill : Byte) (d : Device) (p : List Byte) : Device :=
  if isCommand p then { handleCmd execute d (parseCmd p) with seen := d.seen ++ [parseCmd p] }
  else match d.session with
    | none => d
    | some a =>
      { d with mem := storeBytes d.mem a (stepBytes fill p),
               session := some (a + BitVec.ofNat 32 (stepBytes fill p).length) }

def receiveAll (execute : Word → Mem → Mem) (fill : Byte) (d : Device)
    (ps : List (List Byte)) : Device :=
  ps.foldl (receive execute fill) d

def packets (writes : List (List Byte)) : List (List Byte) := writes.flatMap (pieces PACKET_SIZE)

section Device
variable (execute : Word → Mem → Mem) (fill : Byte)

theorem receive_seen (d : Device) (p : List Byte) :
    (receive execute fill d p).seen = d.seen ++ if isCommand p then [parseCmd p] else [] := by
  unfold receive
  split
  · rfl
  · rw [List.append_nil]
    split <;> rfl

/-- Every packet that looks like a command is taken as one, and no other. -/
theorem receiveAll_seen (d : Device) (ps : List (List Byte)) :
    (receiveAll execute fill d ps).seen = d.seen ++ (ps.filter isCommand).map parseCmd := by
  induction ps generalizing d with
  | nil => simp [receiveAll]
  | cons p ps ih =>
    have hstep : receiveAll execute fill d (p :: ps) =
        receiveAll execute fill (receive execute fill d p) ps := rfl
    rw [hstep, ih, receive_seen]
    cases hp : isCommand p with
    | false => simp [hp]
    | true => simp [hp]

theorem stepBytes_of_dvd {p : List Byte} (h : 4 ∣ p.length) : stepBytes fill p = p := by
  have h0 : p.length % 4 = 0 := Nat.mod_eq_zero_of_dvd h
  simp [stepBytes, h0]

/-- Data packets in a session store their bytes one after the other. -/
theorem receiveAll_data (d : Device) (a : Word) (hd : d.session = some a)
    (ps : List (List Byte)) (hdata : ∀ p ∈ ps, isCommand p = false ∧ 4 ∣ p.length) :
    receiveAll execute fill d ps =
      ⟨storeBytes d.mem a ps.flatten, some (a + BitVec.ofNat 32 ps.flatten.length), d.seen⟩ := by
  induction ps generalizing d a with
  | nil =>
    obtain ⟨mem, session, seen⟩ := d
    subst hd
    simp [receiveAll, storeBytes]
  | cons p ps ih =>
    obtain ⟨hp, hdvd⟩ := hdata p List.mem_cons_self
    have hstep : receiveAll execute fill d (p :: ps) = receiveAll execute fill
        ⟨storeBytes d.mem a p, some (a + BitVec.ofNat 32 p.length), d.seen⟩ ps := by
      change receiveAll execute fill (receive execute fill d p) ps = _
      rw [receive, if_neg (by simp [hp]), hd]
      simp only [stepBytes_of_dvd fill hdvd]
    rw [hstep, ih _ _ rfl (fun q hq => hdata q (List.mem_cons_of_mem p hq)), List.flatten_cons,
      storeBytes_append, List.length_append, BitVec.ofNat_add, BitVec.add_assoc]

end Device

theorem packU32_toNat (v : Word) : packU32 v.toNat = some (wordBytes v) := by
  rw [packU32, if_pos v.isLt, BitVec.ofNat_toNat, BitVec.setWidth_eq]

/-- A frame is one packet, is taken as a command, and carries its fields. -/
theorem frameBytes_command (opcode : Byte) (addr arg0 arg1 : Word) :
    let p := frameBytes opcode (wordBytes addr) (wordBytes arg0) (wordBytes arg1)
    pieces PACKET_SIZE p = [p] ∧ isCommand p = true ∧ parseCmd p = ⟨opcode, addr, arg0, arg1⟩ := by
  refine ⟨pieces_of_length_le (by decide) (List.cons_ne_nil _ _) (le_of_eq rfl), rfl, ?_⟩
  change Cmd.mk opcode (leWord _ _ _ _) (leWord _ _ _ _) (leWord _ _ _ _) = _
  congr 1
  · exact leWord_extract addr
  · exact leWord_extract arg0
  · exact leWord_extract arg1

theorem padded_dvd (data : List Byte) : 4 ∣ (padded data).length := by
  unfold padded
  split
  · rw [List.length_append, List.length_replicate]
    omega
  · omega

def beginFrame (addr : Word) (data : List Byte) : List Byte :=
  frameBytes OPCODE_DOWNLOAD_BEGIN (wordBytes addr)
    (wordBytes (BitVec.ofNat 32 (padded data).length)) (wordBytes 0)

def doneFrame : List Byte :=
  frameBytes OPCODE_DOWNLOAD_DONE (wordBytes 0) (wordBytes 0) (wordBytes 0)

theorem writeMem_eq (addr : Word) (data : List Byte) :
    writeMem addr.toNat data =
      if (padded data).length < 2 ^ 32 then
        some (beginFrame addr data :: pieces FRAME_SIZE (padded data) ++ [doneFrame])
      else none := by
  have hzero : packU32 0 = some (wordBytes 0) := rfl
  unfold writeMem buildCmdFrame
  rw [packU32_toNat, hzero, packU32]
  split <;> rfl

/-- What the bus delivers of a download: the packets of the payload between the two frames. -/
theorem packets_writeMem (addr : Word) (data : List Byte) :
    packets (beginFrame addr data :: pieces FRAME_SIZE (padded data) ++ [doneFrame]) =
      beginFrame addr data :: pieces PACKET_SIZE (padded data) ++ [doneFrame] := by
  have hfirst : pieces PACKET_SIZE (beginFrame addr data) = [beginFrame addr data] :=
    (frameBytes_command _ _ _ _).1
  have hlast : pieces PACKET_SIZE doneFrame = [doneFrame] := (frameBytes_command _ _ _ _).1
  have hcut : (pieces FRAME_SIZE (padded data)).flatMap (pieces PACKET_SIZE) =
      pieces PACKET_SIZE (padded data) :=
    flatMap_pieces (n := PACKET_SIZE) (k := 256) (by decide) (by decide) _
  rw [packets, List.cons_append, List.flatMap_cons, List.flatMap_append, hfirst, hcut,
    List.flatMap_singleton, hlast]
  rfl

def beginCmd (addr : Word) (data : List Byte) : Cmd :=
  ⟨OPCODE_DOWNLOAD_BEGIN, addr, BitVec.ofNat 32 (padded data).length, 0⟩

def doneCmd : Cmd := ⟨OPCODE_DOWNLOAD_DONE, 0, 0, 0⟩

/-- A download stores its payload and shows the device its own two commands, no other. -/
def Transparent (execute : Word → Mem → Mem) (fill : Byte) (d : Device) (addr : Word)
    (data : List Byte) : Prop :=
  ∃ writes, writeMem addr.toNat data = some writes ∧
    (receiveAll execute fill d (packets writes)).mem = storeBytes d.mem addr (padded data) ∧
    (receiveAll execute fill d (packets writes)).seen = d.seen ++ [beginCmd addr data, doneCmd]

section Download
variable (execute : Word → Mem → Mem) (fill : Byte) (d : Device) (addr : Word) (data : List Byte)

theorem download_seen :
    (receiveAll execute fill d
      (beginFrame addr data :: pieces PACKET_SIZE (padded data) ++ [doneFrame])).seen =
    d.seen ++ (beginCmd addr data ::
      ((pieces PACKET_SIZE (padded data)).filter isCommand).map parseCmd ++ [doneCmd]) := by
  obtain ⟨-, hcmd, hparse⟩ := frameBytes_command OPCODE_DOWNLOAD_BEGIN addr
    (BitVec.ofNat 32 (padded data).length) 0
  obtain ⟨-, hcmd', hparse'⟩ := frameBytes_command OPCODE_DOWNLOAD_DONE 0 0 0
  have hfirst : isCommand (beginFrame addr data) = true := hcmd
  have hlast : isCommand doneFrame = true := hcmd'
  have hb : parseCmd (beginFrame addr data) = beginCmd addr data := hparse
  have hd : parseCmd doneFrame = doneCmd := hparse'
  rw [receiveAll_seen, List.cons_append, List.filter_cons_of_pos hfirst, List.filter_append,
    List.filter_cons_of_pos hlast, List.map_cons, List.map_append, List.map_cons, hb, hd]
  rfl

theorem download_mem (h : ∀ p ∈ pieces PACKET_SIZE (padded data), isCommand p = false) :
    (receiveAll execute fill d
      (beginFrame addr data :: pieces PACKET_SIZE (padded data) ++ [doneFrame])).mem =
    storeBytes d.mem addr (padded data) := by
  obtain ⟨-, hcmd, hparse⟩ := frameBytes_command OPCODE_DOWNLOAD_BEGIN addr
    (BitVec.ofNat 32 (padded data).length) 0
  obtain ⟨-, hcmd', hparse'⟩ := frameBytes_command OPCODE_DOWNLOAD_DONE 0 0 0
  have hopen : receive execute fill d (beginFrame addr data) =
      ⟨d.mem, some addr, d.seen ++ [beginCmd addr data]⟩ := by
    rw [receive, beginFrame, if_pos hcmd, hparse]
    rfl
  have hclose : ∀ e : Device, (receive execute fill e doneFrame).mem = e.mem := by
    intro e
    rw [receive, doneFrame, if_pos hcmd', hparse']
    rfl
  have hdata := receiveAll_data execute fill ⟨d.mem, some addr, d.seen ++ [beginCmd addr data]⟩
    addr rfl (pieces PACKET_SIZE (padded data)) (fun p hp => ⟨h p hp,
      dvd_length_of_mem_pieces (by decide) (by decide) (padded_dvd data) hp⟩)
  rw [receiveAll, List.cons_append, List.foldl_cons, List.foldl_append, hopen, List.foldl_cons,
    List.foldl_nil, hclose]
  change (receiveAll execute fill _ _).mem = _
  rw [hdata, flatten_pieces (by decide)]

theorem writeMem_transparent_iff :
    Transparent execute fill d addr data ↔
      (padded data).length < 2 ^ 32 ∧
      ∀ i, isCommand (((padded data).drop (64 * i)).take 64) = false := by
  unfold Transparent
  rw [writeMem_eq]
  by_cases hlen : (padded data).length < 2 ^ 32
  · rw [if_pos hlen]
    have hnone : (∀ p ∈ pieces PACKET_SIZE (padded data), isCommand p = false) ↔
        ∀ i, isCommand (((padded data).drop (64 * i)).take 64) = false := by
      constructor
      · intro h i
        by_cases hi : 64 * i < (padded data).length
        · exact h _ ((mem_pieces (by decide) _ _).mpr ⟨i, hi, rfl⟩)
        · rw [List.drop_of_length_le (not_lt.mp hi)]
          rfl
      · intro h p hp
        obtain ⟨i, -, rfl⟩ := (mem_pieces (by decide) _ _).mp hp
        exact h i
    rw [← hnone]
    constructor
    · intro hex
      obtain ⟨writes, hwrites, -, hseen⟩ := hex
      refine ⟨hlen, ?_⟩
      rw [← Option.some.inj hwrites, packets_writeMem, download_seen] at hseen
      have hmid := List.append_cancel_left hseen
      have hempty : ((pieces PACKET_SIZE (padded data)).filter isCommand).length = 0 := by
        have := congrArg List.length hmid
        simpa using this
      intro p hp
      rw [List.length_eq_zero_iff, List.filter_eq_nil_iff] at hempty
      exact Bool.not_eq_true _ ▸ hempty p hp
    · intro hboth
      obtain ⟨-, h⟩ := hboth
      refine ⟨_, rfl, ?_, ?_⟩
      · rw [packets_writeMem]
        exact download_mem execute fill d addr data h
      · have hempty : (pieces PACKET_SIZE (padded data)).filter isCommand = [] :=
          List.filter_eq_nil_iff.mpr (fun p hp => by simp [h p hp])
        rw [packets_writeMem, download_seen, hempty]
        rfl
  · rw [if_neg hlen]
    exact iff_of_false (fun ⟨_, h, _⟩ => by cases h) (fun h => hlen h.1)

end Download

/-- A payload that is itself a command frame ends its own download. -/
theorem writeMem_taken_as_command :
    ¬ ∀ (execute : Word → Mem → Mem) (fill : Byte) (d : Device) (addr : Word)
      (data : List Byte), Transparent execute fill d addr data := by
  intro h
  obtain ⟨writes, hwrites, -, hseen⟩ := h (fun _ m => m) 0 ⟨fun _ => 0, none, []⟩ 0 doneFrame
  rw [writeMem_eq, if_pos (by decide)] at hwrites
  rw [← Option.some.inj hwrites, packets_writeMem, download_seen] at hseen
  have hpad : pieces PACKET_SIZE (padded doneFrame) = [doneFrame] :=
    pieces_of_length_le (by decide) (List.cons_ne_nil _ _) (by decide)
  rw [hpad] at hseen
  exact absurd (congrArg List.length hseen) (by decide)

end AipcOs.UsbBoot
