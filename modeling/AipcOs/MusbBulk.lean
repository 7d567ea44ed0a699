import AipcOs.ByteMemory

/-! musb_bulk_send of gdbstub/musb.c: how a message is cut into packets, and what each one stages
in the L2 window and pokes into the FIFO. -/
namespace AipcOs.MusbBulk
open ByteMemory

inductive Mmio where
  | index
  | forbidWrite (on : Bool)
  | fifo8
  | fifo32
  | l2Word (offset : Nat) (value : Word)
  | txCount (count : Nat)
  | startPreRead
  | csrReady
  deriving DecidableEq

def packLe (m : Mem) (p : Word) (avail : Nat) : Word :=
  (List.range 4).foldl (fun w k =>
    w ||| (if k < avail then m (p + BitVec.ofNat 32 k) else 0).setWidth 32 <<< (8 * k)) 0

def loadLe (m : Mem) (p : Word) (avail : Nat) : Word :=
  if 4 ≤ avail ∧ p &&& 3 = 0 then wordAt m p else packLe m p avail

/-- `for (i = 0; i < count; i += 4)` -/
def wordOffsets (count : Nat) : List Nat := (List.range ((count + 3) / 4)).map (4 * ·)

def stageWord (m : Mem) (data : Word) (count i : Nat) : Mmio :=
  .l2Word i (loadLe m (data + BitVec.ofNat 32 i) (count - i))

def fill (m : Mem) (data : Word) (count : Nat) : List Mmio :=
  if count &&& 3 ≠ 0 then
    List.replicate count .fifo8 ++ (wordOffsets count).map (stageWord m data count)
  else (wordOffsets count).flatMap fun i => [stageWord m data count i, .fifo32]

def sendPacket (m : Mem) (data : Word) (count : Nat) : List Mmio :=
  [.index, .forbidWrite true] ++ fill m data count ++
    [.txCount count, .startPreRead, .csrReady, .forbidWrite false]

/-- A full final packet is shortened by one byte. -/
def packetCount (maxp len : Nat) : Nat :=
  let count := if maxp < len then maxp else len
  if count = len ∧ count = maxp then count - 1 else count

/-- The loop for at most `fuel` turns, a list of writes for each. `wait n` is what bulk_tx_wait
returns the n-th time. -/
def musbBulkSend (m : Mem) (maxp : Nat) (wait : Nat → Bool) :
    (fuel : Nat) → (data : Word) → (len turn : Nat) → Option (List (List Mmio))
  | 0, _, _, _ => none
  | fuel + 1, data, len, turn =>
    if len = 0 then some []
    else if wait turn = false then some []
    else
      let count := packetCount maxp len
      (musbBulkSend m maxp wait fuel (data + BitVec.ofNat 32 count) (len - count) (turn + 1)).map
        (sendPacket m data count :: ·)

def BULK_MAXP_HS : Nat := 512
def BULK_MAXP_FS : Nat := 64

def bulkMaxp (highSpeed : Bool) : Nat := if highSpeed then BULK_MAXP_HS else BULK_MAXP_FS

abbrev Window := Nat → Byte

def Mmio.apply (w : Window) : Mmio → Window
  | .l2Word offset value => fun i =>
    if offset ≤ i ∧ i < offset + 4 then value.extractLsb' (8 * (i - offset)) 8 else w i
  | _ => w

def stage (w : Window) (writes : List Mmio) : Window := writes.foldl Mmio.apply w

def txCountOf : List Mmio → Nat
  | [] => 0
  | .txCount count :: _ => count
  | _ :: writes => txCountOf writes

def Mmio.poked : Mmio → Nat
  | .fifo8 => 1
  | .fifo32 => 4
  | _ => 0

def pokedBytes (writes : List Mmio) : Nat := (writes.map Mmio.poked).sum

/-- What goes over the wire: of each turn, the first TX_COUNT bytes of the window. -/
def wirePackets (w : Window) : List (List Mmio) → List (List Byte)
  | [] => []
  | writes :: turns =>
    (List.range (txCountOf writes)).map (stage w writes) :: wirePackets (stage w writes) turns

theorem packLe_eq (m : Mem) (p : Word) (avail : Nat) :
    packLe m p avail =
      leWord (if 0 < avail then m p else 0) (if 1 < avail then m (p + 1) else 0)
        (if 2 < avail then m (p + 2) else 0) (if 3 < avail then m (p + 3) else 0) := by
  have hrange : List.range 4 = [0, 1, 2, 3] := rfl
  simp only [packLe, hrange, List.foldl_cons, List.foldl_nil, leWord]
  simp

theorem loadLe_byte (m : Mem) (p : Word) {avail k : Nat} (hk : k < 4) (ha : k < avail) :
    (loadLe m p avail).extractLsb' (8 * k) 8 = m (p + BitVec.ofNat 32 k) := by
  rw [loadLe]
  split
  · exact wordAt_byte m p k hk
  · rw [packLe_eq]
    generalize hw : leWord _ _ _ _ = w
    have hbytes := wordBytes_leWord (if 0 < avail then m p else 0)
      (if 1 < avail then m (p + 1) else 0) (if 2 < avail then m (p + 2) else 0)
      (if 3 < avail then m (p + 3) else 0)
    rw [hw] at hbytes
    simp only [wordBytes, List.cons.injEq, and_true] at hbytes
    obtain ⟨h0, h1, h2, h3⟩ := hbytes
    interval_cases k
    · simpa [ha] using h0
    · simpa [ha] using h1
    · simpa [ha] using h2
    · simpa [ha] using h3

/-- After `n` words the window holds the first 4 * n bytes of what they were loaded from. -/
theorem stage_words (m : Mem) (data : Word) (count n : Nat) (w : Window) (i : Nat) (hi : i < count)
    (hn : i < 4 * n) :
    stage w (((List.range n).map (4 * ·)).map (stageWord m data count)) i =
      m (data + BitVec.ofNat 32 i) := by
  induction n with
  | zero => omega
  | succ n ih =>
    rw [List.range_succ, List.map_append, List.map_append, stage, List.foldl_append]
    simp only [List.map_cons, List.map_nil, List.foldl_cons, List.foldl_nil, stageWord, Mmio.apply]
    by_cases hlast : 4 * n ≤ i ∧ i < 4 * n + 4
    · have hbyte : (loadLe m (data + BitVec.ofNat 32 (4 * n)) (count - 4 * n)).extractLsb'
          (8 * (i - 4 * n)) 8 = m (data + BitVec.ofNat 32 (4 * n) + BitVec.ofNat 32 (i - 4 * n)) :=
        loadLe_byte m _ (by omega) (by omega)
      have haddr : data + BitVec.ofNat 32 (4 * n) + BitVec.ofNat 32 (i - 4 * n) =
          data + BitVec.ofNat 32 i := by
        rw [BitVec.add_assoc, ← BitVec.ofNat_add]
        congr 2
        omega
      rw [if_pos hlast, hbyte, haddr]
    · rw [if_neg hlast]
      exact ih (by omega)

/-- Pokes do not touch the window. -/
theorem stage_filter (w : Window) (writes : List Mmio) :
    stage w writes = stage w (writes.filter fun x => x matches .l2Word _ _) := by
  induction writes generalizing w with
  | nil => rfl
  | cons x writes ih =>
    cases x <;> exact ih _

theorem fill_words (m : Mem) (data : Word) (count : Nat) :
    (fill m data count).filter (fun x => x matches .l2Word _ _) =
      (wordOffsets count).map (stageWord m data count) := by
  have hwords (is : List Nat) : (is.map (stageWord m data count)).filter
      (fun x => x matches .l2Word _ _) = is.map (stageWord m data count) := by
    rw [List.filter_eq_self]
    intro x hx
    obtain ⟨i, -, rfl⟩ := List.mem_map.mp hx
    rfl
  rw [fill]
  split
  · have hpokes : (List.replicate count Mmio.fifo8).filter (fun x => x matches .l2Word _ _) = [] := by
      rw [List.filter_eq_nil_iff]
      intro x hx
      rw [List.eq_of_mem_replicate hx]
      exact Bool.false_ne_true
    rw [List.filter_append, hpokes, List.nil_append, hwords]
  · induction wordOffsets count with
    | nil => rfl
    | cons i is ih =>
      rw [List.flatMap_cons, List.filter_append, ih]
      rfl

theorem sendPacket_words (m : Mem) (data : Word) (count : Nat) :
    (sendPacket m data count).filter (fun x => x matches .l2Word _ _) =
      (wordOffsets count).map (stageWord m data count) := by
  rw [sendPacket, List.filter_append, List.filter_append, fill_words]
  exact List.append_nil _

theorem txCountOf_append {writes : List Mmio} (h : ∀ n, .txCount n ∉ writes) (rest : List Mmio) :
    txCountOf (writes ++ rest) = txCountOf rest := by
  induction writes with
  | nil => rfl
  | cons x writes ih =>
    have hrest := ih fun n hn => h n (List.mem_cons_of_mem _ hn)
    cases x with
    | txCount n => exact absurd List.mem_cons_self (h n)
    | _ => exact hrest

theorem sendPacket_txCount (m : Mem) (data : Word) (count : Nat) :
    txCountOf (sendPacket m data count) = count := by
  rw [sendPacket, txCountOf_append]
  · rfl
  · intro n hn
    rw [fill] at hn
    split at hn <;> simp [stageWord] at hn

/-- The first `count` bytes of the window are the source's, whatever its alignment. -/
theorem sendPacket_bytes (m : Mem) (data : Word) (count : Nat) (w : Window) :
    (List.range count).map (stage w (sendPacket m data count)) = readBytes m data count := by
  apply List.ext_getElem?
  intro i
  by_cases hi : i < count
  · have hstage := stage_words m data count ((count + 3) / 4) w i hi (by omega)
    rw [readBytes_getElem? m data count i hi, List.getElem?_map, List.getElem?_range hi, Option.map_some,
      stage_filter, sendPacket_words, wordOffsets, hstage]
  · have hlen : ((List.range count).map (stage w (sendPacket m data count))).length ≤ i := by
      rw [List.length_map, List.length_range]
      omega
    have hread : (readBytes m data count).length ≤ i := by
      rw [readBytes_length]
      omega
    rw [List.getElem?_eq_none hlen, List.getElem?_eq_none hread]

theorem pokedBytes_append (a b : List Mmio) : pokedBytes (a ++ b) = pokedBytes a + pokedBytes b := by
  rw [pokedBytes, List.map_append, List.sum_append]
  rfl

/-- Byte pokes and word pokes advance the FIFO by the packet's length. -/
theorem sendPacket_poked (m : Mem) (data : Word) (count : Nat) :
    pokedBytes (sendPacket m data count) = count := by
  have hmod : count &&& 3 = count % 4 := Nat.and_two_pow_sub_one_eq_mod count 2
  have hfill : pokedBytes (fill m data count) = count := by
    rw [fill, hmod]
    split
    · have hwords (is : List Nat) : pokedBytes (is.map (stageWord m data count)) = 0 := by
        induction is with
        | nil => rfl
        | cons i is ih =>
          rw [pokedBytes] at ih ⊢
          simpa [stageWord, Mmio.poked] using ih
      rw [pokedBytes_append, hwords, pokedBytes, List.map_replicate, List.sum_replicate]
      simp [Mmio.poked]
    · rename_i hdvd
      rw [not_not] at hdvd
      have hwords (is : List Nat) :
          pokedBytes (is.flatMap fun i => [stageWord m data count i, .fifo32]) = 4 * is.length := by
        induction is with
        | nil => rfl
        | cons i is ih =>
          rw [List.flatMap_cons, pokedBytes_append, ih, List.length_cons]
          change 4 + 4 * is.length = 4 * (is.length + 1)
          omega
      rw [hwords, wordOffsets, List.length_map, List.length_range]
      omega
  have hbefore : pokedBytes [.index, .forbidWrite true] = 0 := rfl
  have hafter : pokedBytes [.txCount count, .startPreRead, .csrReady, .forbidWrite false] = 0 := rfl
  rw [sendPacket, pokedBytes_append, pokedBytes_append, hfill, hbefore, hafter, Nat.zero_add,
    Nat.add_zero]

theorem readBytes_add (m : Mem) (a : Word) (n k : Nat) :
    readBytes m a (n + k) = readBytes m a n ++ readBytes m (a + BitVec.ofNat 32 n) k := by
  induction n generalizing a with
  | zero => simp [readBytes]
  | succ n ih =>
    rw [Nat.succ_add, readBytes, readBytes, ih (a + 1), add_one_ofNat, List.cons_append]

/-- A message as packets: the last is short, the one before may be, the others are full. -/
structure Packetized (maxp : Nat) (message : List Byte) (ps : List (List Byte)) : Prop where
  whole : ps.flatten = message
  sizes : ∀ p ∈ ps, 1 ≤ p.length ∧ p.length ≤ maxp
  full : ∀ p ∈ ps.dropLast.dropLast, p.length = maxp
  short : ∀ p, ps.getLast? = some p → p.length < maxp

theorem Packetized.length_le {maxp : Nat} {message : List Byte} {ps : List (List Byte)}
    (h : Packetized maxp message ps) : ps.length ≤ message.length := by
  have hsum (ps : List (List Byte)) (hs : ∀ p ∈ ps, 1 ≤ p.length) :
      ps.length ≤ ps.flatten.length := by
    induction ps with
    | nil => exact Nat.le_refl 0
    | cons p ps ih =>
      have hp := hs p List.mem_cons_self
      have hps := ih fun q hq => hs q (List.mem_cons_of_mem _ hq)
      rw [List.flatten_cons, List.length_append, List.length_cons]
      omega
  rw [← h.whole]
  exact hsum ps fun p hp => (h.sizes p hp).1

theorem packetCount_cases {maxp : Nat} (hm : 2 ≤ maxp) (len : Nat) :
    maxp < len ∧ packetCount maxp len = maxp ∨
      len = maxp ∧ packetCount maxp len = maxp - 1 ∨
      len < maxp ∧ packetCount maxp len = len := by
  simp only [packetCount]
  split <;> split <;> omega

/-- One packet in front of a packetized rest. -/
theorem Packetized.cons {maxp len : Nat} (hm : 2 ≤ maxp) (hl : 0 < len) {p rest : List Byte}
    {ps : List (List Byte)} (hp : p.length = packetCount maxp len)
    (hrest : rest.length = len - packetCount maxp len) (h : Packetized maxp rest ps) :
    Packetized maxp (p ++ rest) (p :: ps) := by
  have hcount := packetCount_cases hm len
  have hfew := h.length_le
  refine ⟨?_, ?_, ?_, ?_⟩
  · rw [List.flatten_cons, h.whole]
  · intro q hq
    obtain rfl | hq := List.mem_cons.mp hq
    · omega
    · exact h.sizes q hq
  · intro q hq
    match ps, h, hfew with
    | [], _, _ => cases hq
    | [a], _, _ => cases hq
    | a :: b :: ps, h, hfew =>
      rw [List.length_cons, List.length_cons] at hfew
      obtain rfl | hq := List.mem_cons.mp hq
      · omega
      · exact h.full q hq
  · intro q hq
    cases ps with
    | nil =>
      have hnone : rest.length = 0 := by
        rw [← h.whole]
        rfl
      obtain rfl : p = q := Option.some.inj hq
      omega
    | cons a ps =>
      rw [List.getLast?_cons_cons] at hq
      exact h.short q hq

theorem musbBulkSend_packets (m : Mem) {maxp : Nat} (hm : 2 ≤ maxp) {wait : Nat → Bool}
    (hwait : ∀ n, wait n = true) (fuel : Nat) (data : Word) (len turn : Nat) (hf : len < fuel) :
    ∃ turns, musbBulkSend m maxp wait fuel data len turn = some turns ∧
      (∀ w, Packetized maxp (readBytes m data len) (wirePackets w turns)) ∧
      ∀ writes ∈ turns, pokedBytes writes = txCountOf writes := by
  induction fuel generalizing data len turn with
  | zero => omega
  | succ fuel ih =>
    rw [musbBulkSend]
    by_cases hl : len = 0
    · subst hl
      rw [if_pos rfl]
      have hnil : Packetized maxp [] [] := ⟨rfl, nofun, nofun, nofun⟩
      exact ⟨[], rfl, fun _ => hnil, nofun⟩
    · have hgo : ¬wait turn = false := by simp [hwait]
      have hcount := packetCount_cases hm len
      rw [if_neg hl, if_neg hgo]
      simp only
      obtain ⟨turns, hrun, hps, hpoked⟩ := ih (data + BitVec.ofNat 32 (packetCount maxp len))
        (len - packetCount maxp len) (turn + 1) (by omega)
      refine ⟨_, by rw [hrun]; rfl, fun w => ?_, ?_⟩
      · have hsplit := readBytes_add m data (packetCount maxp len) (len - packetCount maxp len)
        have hlen : packetCount maxp len + (len - packetCount maxp len) = len := by omega
        rw [hlen] at hsplit
        rw [hsplit, wirePackets, sendPacket_txCount, sendPacket_bytes]
        exact Packetized.cons hm (Nat.pos_of_ne_zero hl) (readBytes_length _ _ _)
          (readBytes_length _ _ _) (hps _)
      · intro writes hw
        obtain rfl | hw := List.mem_cons.mp hw
        · rw [sendPacket_poked, sendPacket_txCount]
        · exact hpoked writes hw

/-- At either speed, from any address, over any older contents of the window. -/
theorem bulk_send_lossless (m : Mem) (highSpeed : Bool) (data : Word) (len : Nat) (wait : Nat → Bool)
    (hwait : ∀ n, wait n = true) :
    ∃ turns, musbBulkSend m (bulkMaxp highSpeed) wait (len + 1) data len 0 = some turns ∧
      (∀ w, Packetized (bulkMaxp highSpeed) (readBytes m data len) (wirePackets w turns)) ∧
      ∀ writes ∈ turns, pokedBytes writes = txCountOf writes := by
  have hm : 2 ≤ bulkMaxp highSpeed := by cases highSpeed <;> decide
  exact musbBulkSend_packets m hm hwait (len + 1) data len 0 (Nat.lt_succ_self len)

theorem bulk_send_lossless_full :
    ∃ turns, musbBulkSend (fun a => a.setWidth 8) (bulkMaxp false) (fun _ => true) 129 0x1002 128 0 =
        some turns ∧
      (∀ w, Packetized (bulkMaxp false) (readBytes (fun a => a.setWidth 8) 0x1002 128)
        (wirePackets w turns)) ∧
      ∀ writes ∈ turns, pokedBytes writes = txCountOf writes :=
  bulk_send_lossless (fun a => a.setWidth 8) false 0x1002 128 (fun _ => true) fun _ => rfl

/-- Two full packets' worth: the second is cut by one byte, which makes a third. -/
example : packetCount 64 128 = 64 ∧ packetCount 64 64 = 63 ∧ packetCount 64 1 = 1 := by decide

end AipcOs.MusbBulk
