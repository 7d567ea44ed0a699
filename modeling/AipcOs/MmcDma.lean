import AipcOs.ByteMemory

/-! anyka-mmc: a request's scatterlist, checked when it is mapped and then fed to the L2 buffer
chunk by chunk. -/
namespace AipcOs.MmcDma
open ByteMemory

def DMA_GRANULARITY : Nat := 64
def DMA_CHUNK_SIZE : Word := 8192
def MAX_BLOCK_SIZE : Word := 512

def STA_DATACRCFAIL : Word := 0x1 <<< 1
def STA_DATATIMEOUT : Word := 0x1 <<< 3
def STA_DATAEND : Word := 0x1 <<< 6
def STA_STARTBITERR : Word := 0x1 <<< 8
def DATA_ERROR : Word := STA_DATACRCFAIL ||| STA_DATATIMEOUT ||| STA_STARTBITERR

def EIO : Int := 5
def ENOMEM : Int := 12
def EINVAL : Int := 22
def EILSEQ : Int := 84
def ETIMEDOUT : Int := 110

/-- An entry of a mapped scatterlist; `w` is the width of dma_addr_t. -/
structure Segment (w : Nat) where
  address : BitVec w
  length : Word

structure Host (w : Nat) where
  /-- The entry that `dma_sg` points at and those behind it. -/
  dma_sg : List (Segment w)
  dma_sg_count : Nat
  dma_sg_index : Nat
  dma_sg_offset : Word
  dma_submitted : Word

structure Data (w : Nat) where
  blksz : Word
  blocks : Word
  sg_count : Nat
  /-- The entries of `sg` while they are mapped. -/
  sg : List (Segment w)

variable {w : Nat}

def Data.total (data : Data w) : Word := data.blksz * data.blocks

def usesDma (data : Data w) : Bool :=
  data.blksz = MAX_BLOCK_SIZE && MAX_BLOCK_SIZE ≤ data.total &&
    data.total.toNat % DMA_GRANULARITY = 0

def unsupported (s : Segment w) (total mapped : Word) : Bool :=
  s.length = 0 || s.address.toNat % DMA_GRANULARITY ≠ 0 || s.length.toNat % DMA_GRANULARITY ≠ 0 ||
    (s.address >>> 32).setWidth 32 ≠ 0#32 || s.length > total - mapped

def checkSegments (total : Word) : List (Segment w) → (mapped : Word) → Option Word
  | [], mapped => some mapped
  | s :: rest, mapped =>
    if unsupported s total mapped then none else checkSegments total rest (mapped + s.length)

structure Mapped (w : Nat) where
  ret : Int
  host : Host w
  data : Data w

/-- `mapping` is what dma_map_sg makes of the list, empty if it fails. -/
def mapData (host : Host w) (data : Data w) (mapping : List (Segment w)) (total : Word) :
    Mapped w :=
  let data := { data with sg_count := mapping.length, sg := mapping }
  if data.sg_count = 0 then ⟨-ENOMEM, host, data⟩
  else if checkSegments total mapping 0 = some total then
    { ret := 0
      host :=
        { dma_sg := data.sg
          dma_sg_count := data.sg_count
          dma_sg_index := 0
          dma_sg_offset := 0
          dma_submitted := 0 }
      data := data }
  else ⟨-EINVAL, host, { data with sg_count := 0, sg := [] }⟩

structure Chunk (w : Nat) where
  address : BitVec w
  bytes : Word

def nextFrom : (left : Nat) → Host w → Option (Chunk w) × Host w
  | 0, host => (none, host)
  | left + 1, host =>
    match host.dma_sg with
    | [] => (none, host)
    | s :: behind =>
      let available := s.length - host.dma_sg_offset
      if available ≠ 0 then
        let bytes := if available < DMA_CHUNK_SIZE then available else DMA_CHUNK_SIZE
        (some ⟨s.address + host.dma_sg_offset.setWidth w, bytes⟩,
          { host with
            dma_sg_offset := host.dma_sg_offset + bytes
            dma_submitted := host.dma_submitted + bytes })
      else
        nextFrom left
          { host with
            dma_sg_index := host.dma_sg_index + 1
            dma_sg_offset := 0
            dma_sg := if host.dma_sg_index + 1 < host.dma_sg_count then behind else host.dma_sg }

def nextDmaChunk (host : Host w) : Option (Chunk w) × Host w :=
  nextFrom (host.dma_sg_count - host.dma_sg_index) host

structure Env where
  wait_l2_irq : Nat → Int
  l2_start_dma : Nat → Int
  wait_data_irq : Int × Word
  datacnt : Word

/-- How the transfer ended: in an error, or behind the last chunk at the data-end check. -/
inductive Exit where
  | failed (ret : Int)
  | dataEnd (ret : Int)

structure Transfer (w : Nat) where
  host : Host w
  chunks : List (Chunk w)
  exit : Option Exit

def submit (env : Env) (t : Transfer w) : Transfer w :=
  match nextDmaChunk t.host with
  | (none, host) => { t with host := host, exit := some (.failed (- EIO)) }
  | (some c, host) =>
    let ret := env.l2_start_dma t.chunks.length
    { host := host
      chunks := t.chunks ++ [c]
      exit := if ret ≠ 0 then some (.failed ret) else none }

def setupData (env : Env) (host : Host w) (data : Data w) : Transfer w :=
  if usesDma data then submit env ⟨host, [], none⟩ else ⟨host, [], none⟩

def dataError (status : Word) : Int :=
  if status &&& STA_DATATIMEOUT ≠ 0 then -ETIMEDOUT
  else if status &&& DATA_ERROR ≠ 0 then -EILSEQ
  else 0

def dataEnd (env : Env) : Int :=
  let ret := env.wait_data_irq.1
  let status := env.wait_data_irq.2
  if ret ≠ 0 then ret
  else if dataError status ≠ 0 then dataError status
  else if status &&& STA_DATAEND = 0 || env.datacnt ≠ 0 then - EIO
  else 0

def waitDma (env : Env) (data : Data w) (t : Transfer w) : Transfer w :=
  match t.exit with
  | some _ => t
  | none =>
    let ret := env.wait_l2_irq t.chunks.length
    if ret ≠ 0 then { t with exit := some (.failed ret) }
    else if t.host.dma_submitted < data.total then submit env t
    else { t with exit := some (.dataEnd (dataEnd env)) }

def transfer (env : Env) (m : Mapped w) (n : Nat) : Transfer w :=
  (waitDma env m.data)^[n] (setupData env m.host m.data)

def span (a : BitVec w) (n : Nat) : List (BitVec w) :=
  (List.range n).map fun i => a + BitVec.ofNat w i

def segmentBytes (segs : List (Segment w)) : List (BitVec w) :=
  segs.flatMap fun s => span s.address s.length.toNat

def chunkBytes (chunks : List (Chunk w)) : List (BitVec w) :=
  chunks.flatMap fun c => span c.address c.bytes.toNat

theorem span_length (a : BitVec w) (n : Nat) : (span a n).length = n := by
  simp [span]

theorem span_add (a : BitVec w) (n k : Nat) :
    span a (n + k) = span a n ++ span (a + BitVec.ofNat w n) k := by
  rw [span, List.range_add, List.map_append, List.map_map]
  congr 1
  apply List.map_congr_left
  intro i _
  simp [BitVec.ofNat_add, BitVec.add_assoc]

theorem segmentBytes_length (segs : List (Segment w)) :
    (segmentBytes segs).length = (segs.map fun s => s.length.toNat).sum := by
  simp [segmentBytes, List.length_flatMap, span_length]

theorem chunkBytes_length (chunks : List (Chunk w)) :
    (chunkBytes chunks).length = (chunks.map fun c => c.bytes.toNat).sum := by
  simp [chunkBytes, List.length_flatMap, span_length]

structure Supported (s : Segment w) : Prop where
  nonempty : 0 < s.length.toNat
  address : DMA_GRANULARITY ∣ s.address.toNat
  length : DMA_GRANULARITY ∣ s.length.toNat

theorem unsupported_false {s : Segment w} {total mapped : Word}
    (h : unsupported s total mapped = false) (hm : mapped ≤ total) :
    Supported s ∧ s.length.toNat ≤ total.toNat - mapped.toNat := by
  simp only [unsupported, Bool.or_eq_false_iff, decide_eq_false_iff_not, not_not] at h
  obtain ⟨⟨⟨⟨hne, haddr⟩, hlen⟩, _⟩, hfit⟩ := h
  refine ⟨⟨toNat_pos hne, Nat.dvd_of_mod_eq_zero haddr, Nat.dvd_of_mod_eq_zero hlen⟩, ?_⟩
  rw [gt_iff_lt, BitVec.not_lt, BitVec.le_def, BitVec.toNat_sub_of_le hm] at hfit
  exact hfit

theorem checkSegments_some {total : Word} {segs : List (Segment w)} {mapped m : Word}
    (h : checkSegments total segs mapped = some m) (hm : mapped ≤ total) :
    (∀ s ∈ segs, Supported s) ∧ m.toNat = mapped.toNat + (segmentBytes segs).length := by
  induction segs generalizing mapped with
  | nil =>
    simp only [checkSegments, Option.some.injEq] at h
    simp [h, segmentBytes]
  | cons s rest ih =>
    simp only [checkSegments] at h
    split at h
    · cases h
    · rename_i hs
      obtain ⟨hsup, hfit⟩ := unsupported_false (Bool.not_eq_true _ ▸ hs) hm
      have hlt := total.isLt
      rw [BitVec.le_def] at hm
      have hadd : (mapped + s.length).toNat = mapped.toNat + s.length.toNat := by
        rw [BitVec.toNat_add, Nat.mod_eq_of_lt (by omega)]
      obtain ⟨hrest, hsum⟩ := ih h (by rw [BitVec.le_def, hadd]; omega)
      refine ⟨List.forall_mem_cons.mpr ⟨hsup, hrest⟩, ?_⟩
      rw [hsum, hadd, segmentBytes_length, segmentBytes_length, List.map_cons, List.sum_cons]
      omega

structure Piece (segs : List (Segment w)) (c : Chunk w) : Prop where
  nonempty : 0 < c.bytes.toNat
  bound : c.bytes ≤ DMA_CHUNK_SIZE
  address : DMA_GRANULARITY ∣ c.address.toNat
  length : DMA_GRANULARITY ∣ c.bytes.toNat
  inside : ∃ s ∈ segs, ∃ offset : Nat, c.address = s.address + BitVec.ofNat w offset ∧
    offset + c.bytes.toNat ≤ s.length.toNat

structure At (segs done : List (Segment w)) (s : Segment w) (behind : List (Segment w))
    (host : Host w) (chunks : List (Chunk w)) : Prop where
  split : segs = done ++ s :: behind
  sg : host.dma_sg = s :: behind
  count : host.dma_sg_count = segs.length
  index : host.dma_sg_index = done.length
  offset : host.dma_sg_offset ≤ s.length
  aligned : DMA_GRANULARITY ∣ host.dma_sg_offset.toNat
  bytes : chunkBytes chunks = segmentBytes done ++ span s.address host.dma_sg_offset.toNat
  pieces : ∀ c ∈ chunks, Piece segs c
  submitted : host.dma_submitted = BitVec.ofNat 32 (chunkBytes chunks).length

variable {segs done behind : List (Segment w)} {s : Segment w} {host : Host w}
  {chunks : List (Chunk w)}

theorem At.covered (h : At segs done s behind host chunks) :
    chunkBytes chunks <+: segmentBytes segs := by
  have hfit : s.length.toNat =
      host.dma_sg_offset.toNat + (s.length.toNat - host.dma_sg_offset.toNat) :=
    (Nat.add_sub_of_le h.offset).symm
  have hs : segmentBytes segs =
      segmentBytes done ++ span s.address s.length.toNat ++ segmentBytes behind := by
    rw [h.split]
    simp [segmentBytes]
  rw [h.bytes, hs, hfit, span_add]
  simp

theorem span_aligned (hw : 32 ≤ w) {a : BitVec w} {n : Nat} (ha : DMA_GRANULARITY ∣ a.toNat)
    (hn : DMA_GRANULARITY ∣ n) : DMA_GRANULARITY ∣ (a + BitVec.ofNat w n).toNat := by
  have hp : DMA_GRANULARITY ∣ 2 ^ w := Nat.pow_dvd_pow 2 (show 6 ≤ w by omega)
  rw [BitVec.toNat_add, BitVec.toNat_ofNat, Nat.add_mod_mod]
  exact (Nat.dvd_mod_iff hp).mpr (Nat.dvd_add ha hn)

structure ChunkLength (bytes : Word) : Prop where
  nonempty : 0 < bytes.toNat
  bound : bytes ≤ DMA_CHUNK_SIZE
  aligned : DMA_GRANULARITY ∣ bytes.toNat

theorem chunkLength_min {available : Word} (hne : available ≠ 0)
    (hdvd : DMA_GRANULARITY ∣ available.toNat) :
    let bytes := if available < DMA_CHUNK_SIZE then available else DMA_CHUNK_SIZE
    ChunkLength bytes ∧ bytes.toNat ≤ available.toNat := by
  intro bytes
  by_cases hlt : available < DMA_CHUNK_SIZE
  · rw [show bytes = available from if_pos hlt]
    exact ⟨⟨toNat_pos hne, BitVec.le_of_lt hlt, hdvd⟩, le_rfl⟩
  · rw [show bytes = DMA_CHUNK_SIZE from if_neg hlt]
    exact ⟨⟨by decide, BitVec.le_refl _, by decide⟩, BitVec.not_lt.mp hlt⟩

/-- A chunk that fits into the rest of the entry moves the cursor behind it. -/
theorem At.advance (hw : 32 ≤ w) (h : At segs done s behind host chunks) (hs : Supported s)
    {bytes : Word} (hlen : ChunkLength bytes)
    (hfit : host.dma_sg_offset.toNat + bytes.toNat ≤ s.length.toNat) :
    At segs done s behind
      { host with
        dma_sg_offset := host.dma_sg_offset + bytes
        dma_submitted := host.dma_submitted + bytes }
      (chunks ++ [⟨s.address + host.dma_sg_offset.setWidth w, bytes⟩]) := by
  have hoffset : (host.dma_sg_offset + bytes).toNat =
      host.dma_sg_offset.toNat + bytes.toNat := by
    rw [BitVec.toNat_add, Nat.mod_eq_of_lt]
    exact hfit.trans_lt s.length.isLt
  have haddr : s.address + host.dma_sg_offset.setWidth w =
      s.address + BitVec.ofNat w host.dma_sg_offset.toNat := by
    rw [BitVec.ofNat_toNat]
  have hpiece : Piece segs ⟨s.address + host.dma_sg_offset.setWidth w, bytes⟩ :=
    { nonempty := hlen.nonempty
      bound := hlen.bound
      address := haddr ▸ span_aligned hw hs.address h.aligned
      length := hlen.aligned
      inside := ⟨s, by simp [h.split], host.dma_sg_offset.toNat, haddr, hfit⟩ }
  exact {
    split := h.split
    sg := h.sg
    count := h.count
    index := h.index
    offset := by rw [BitVec.le_def, hoffset]; exact hfit
    aligned := by rw [hoffset]; exact Nat.dvd_add h.aligned hlen.aligned
    bytes := by
      rw [hoffset, span_add, ← List.append_assoc, ← h.bytes, ← haddr, chunkBytes,
        List.flatMap_append, List.flatMap_singleton]
      rfl
    pieces := by
      intro c hc
      obtain hc | hc := List.mem_append.mp hc
      · exact h.pieces c hc
      · exact List.mem_singleton.mp hc ▸ hpiece
    submitted := by
      rw [h.submitted, chunkBytes, chunkBytes, List.flatMap_append, List.flatMap_singleton,
        List.length_append, span_length, BitVec.ofNat_add, BitVec.ofNat_toNat,
        BitVec.setWidth_eq] }

/-- The rest of the entry, at most one chunk of it, is the next chunk. -/
theorem At.next_here (hw : 32 ≤ w) (h : At segs done s behind host chunks) (hs : Supported s)
    (hoff : host.dma_sg_offset < s.length) (left : Nat) :
    ∃ c host', nextFrom (left + 1) host = (some c, host') ∧
      At segs done s behind host' (chunks ++ [c]) := by
  have havail : (s.length - host.dma_sg_offset).toNat =
      s.length.toNat - host.dma_sg_offset.toNat := BitVec.toNat_sub_of_le h.offset
  have hpos : host.dma_sg_offset.toNat < s.length.toNat := hoff
  have hne : s.length - host.dma_sg_offset ≠ 0 := by
    intro h0
    rw [h0] at havail
    change 0 = _ at havail
    omega
  obtain ⟨hlen, hle⟩ := chunkLength_min hne (havail ▸ Nat.dvd_sub hs.length h.aligned)
  refine ⟨_, _, ?_, h.advance hw hs hlen (by omega)⟩
  rw [nextFrom, h.sg]
  exact if_pos hne

/-- At the end of its entry the cursor first moves to the one behind it. -/
theorem At.next_skip {s' : Segment w} (h : At segs done s (s' :: behind) host chunks)
    (hoff : host.dma_sg_offset = s.length) (left : Nat) :
    ∃ host', nextFrom (left + 1) host = nextFrom left host' ∧
      At segs (done ++ [s]) s' behind host' chunks ∧ host'.dma_sg_offset = 0 := by
  have hlt : host.dma_sg_index + 1 < host.dma_sg_count := by
    rw [h.index, h.count, h.split]
    simp
  refine ⟨{ host with
    dma_sg_index := host.dma_sg_index + 1
    dma_sg_offset := 0
    dma_sg := s' :: behind }, ?_, ?_, rfl⟩
  · rw [nextFrom, h.sg]
    simp [hoff, hlt]
  · exact {
      split := by simp [h.split]
      sg := rfl
      count := h.count
      index := by simp [h.index]
      offset := by simp [BitVec.le_def]
      aligned := Nat.dvd_zero _
      bytes := by simp [h.bytes, hoff, segmentBytes, span]
      pieces := h.pieces
      submitted := h.submitted }

def Cursor (segs : List (Segment w)) (host : Host w) (chunks : List (Chunk w)) : Prop :=
  ∃ done s behind, At segs done s behind host chunks

variable {total : Word}

theorem Cursor.submitted (h : Cursor segs host chunks)
    (hlen : (segmentBytes segs).length = total.toNat) :
    host.dma_submitted.toNat = (chunkBytes chunks).length := by
  obtain ⟨done, s, behind, hat⟩ := h
  have hle := hat.covered.length_le
  have hlt := total.isLt
  rw [hat.submitted, BitVec.toNat_ofNat, Nat.mod_eq_of_lt (by omega)]

theorem Cursor.submitted_le (h : Cursor segs host chunks)
    (hlen : (segmentBytes segs).length = total.toNat) : host.dma_submitted ≤ total := by
  rw [BitVec.le_def, h.submitted hlen, ← hlen]
  obtain ⟨done, s, behind, hat⟩ := h
  exact hat.covered.length_le

/-- With bytes still to go there is a next chunk. -/
theorem Cursor.next (hw : 32 ≤ w) (h : Cursor segs host chunks) (hsup : ∀ s ∈ segs, Supported s)
    (hlen : (segmentBytes segs).length = total.toNat) (hlt : host.dma_submitted < total) :
    ∃ c host', nextDmaChunk host = (some c, host') ∧ Cursor segs host' (chunks ++ [c]) := by
  have hsubmitted := h.submitted hlen
  obtain ⟨done, s, behind, hat⟩ := h
  have hleft : host.dma_sg_count - host.dma_sg_index = behind.length + 1 := by
    rw [hat.count, hat.index, hat.split, List.length_append, List.length_cons]
    omega
  rw [nextDmaChunk, hleft]
  by_cases hoff : host.dma_sg_offset < s.length
  · have hs : Supported s := hsup s (by simp [hat.split])
    obtain ⟨c, host', hnext, hat'⟩ := hat.next_here hw hs hoff behind.length
    exact ⟨c, host', hnext, done, s, behind, hat'⟩
  · have hend : host.dma_sg_offset = s.length := BitVec.le_antisymm hat.offset (BitVec.not_lt.mp hoff)
    cases behind with
    | nil =>
      have hall : chunkBytes chunks = segmentBytes segs := by
        rw [hat.bytes, hat.split, hend]
        simp [segmentBytes]
      rw [BitVec.lt_def, hsubmitted, hall, hlen] at hlt
      exact absurd hlt (lt_irrefl _)
    | cons s' behind =>
      obtain ⟨skipped, hskip, hat', hzero⟩ := hat.next_skip hend (behind.length + 1)
      have hs' : Supported s' := hsup s' (by simp [hat.split])
      obtain ⟨c, host', hnext, hat''⟩ :=
        hat'.next_here hw hs' (by rw [hzero]; exact hs'.nonempty) behind.length
      exact ⟨c, host', hskip.trans hnext, done ++ [s], s', behind, hat''⟩

theorem submit_cursor (hw : 32 ≤ w) {env : Env} {t : Transfer w}
    (h : Cursor segs t.host t.chunks) (hsup : ∀ s ∈ segs, Supported s)
    (hlen : (segmentBytes segs).length = total.toNat) (hlt : t.host.dma_submitted < total)
    (hstart : ∀ n, env.l2_start_dma n = 0) :
    Cursor segs (submit env t).host (submit env t).chunks ∧ (submit env t).exit = none ∧
      (submit env t).chunks.length = t.chunks.length + 1 := by
  obtain ⟨c, host', hnext, hcursor⟩ := h.next hw hsup hlen hlt
  rw [submit, hnext]
  simp [hcursor, hstart]

/-- The transfer after `n` passes: still handing out chunks, or behind the last one. -/
structure Running (env : Env) (segs : List (Segment w)) (total : Word) (n : Nat)
    (t : Transfer w) : Prop where
  cursor : Cursor segs t.host t.chunks
  exit : t.exit = none ∧ n < t.chunks.length ∨
    t.exit = some (.dataEnd (dataEnd env)) ∧ t.host.dma_submitted = total

theorem waitDma_running (hw : 32 ≤ w) {env : Env} {data : Data w} {n : Nat} {t : Transfer w}
    (h : Running env segs data.total n t) (hsup : ∀ s ∈ segs, Supported s)
    (hlen : (segmentBytes segs).length = data.total.toNat)
    (hwait : ∀ n, env.wait_l2_irq n = 0) (hstart : ∀ n, env.l2_start_dma n = 0) :
    Running env segs data.total (n + 1) (waitDma env data t) := by
  obtain ⟨hexit, hn⟩ | ⟨hexit, htotal⟩ := h.exit
  · by_cases hlt : t.host.dma_submitted < data.total
    · have hstep : waitDma env data t = submit env t := by
        simp [waitDma, hexit, hwait, hlt]
      obtain ⟨hcursor, hnone, hlength⟩ := submit_cursor hw h.cursor hsup hlen hlt hstart
      rw [hstep]
      exact ⟨hcursor, Or.inl ⟨hnone, by omega⟩⟩
    · have hstep : waitDma env data t = { t with exit := some (.dataEnd (dataEnd env)) } := by
        simp [waitDma, hexit, hwait, hlt]
      have hle : t.host.dma_submitted ≤ data.total := h.cursor.submitted_le hlen
      rw [hstep]
      exact ⟨h.cursor, Or.inr ⟨rfl, BitVec.le_antisymm hle (BitVec.not_lt.mp hlt)⟩⟩
  · have hstep : waitDma env data t = t := by
      simp [waitDma, hexit]
    rw [hstep]
    exact ⟨h.cursor, Or.inr ⟨hexit, htotal⟩⟩

variable {data : Data w} {mapping : List (Segment w)}

theorem mapData_cases (host : Host w) (data : Data w) (mapping : List (Segment w))
    (total : Word) :
    mapping = [] ∧
        mapData host data mapping total = ⟨-ENOMEM, host, { data with sg_count := 0, sg := [] }⟩ ∨
      mapping ≠ [] ∧ checkSegments total mapping 0 = some total ∧
        mapData host data mapping total =
          ⟨0, ⟨mapping, mapping.length, 0, 0, 0⟩,
            { data with sg_count := mapping.length, sg := mapping }⟩ ∨
      mapData host data mapping total = ⟨-EINVAL, host, { data with sg_count := 0, sg := [] }⟩ := by
  by_cases hnil : mapping = []
  · exact Or.inl ⟨hnil, by simp [mapData, hnil]⟩
  · by_cases hcheck : checkSegments total mapping 0 = some total
    · exact Or.inr (Or.inl ⟨hnil, hcheck, by simpa [mapData, hnil] using hcheck⟩)
    · exact Or.inr (Or.inr (by simpa [mapData, hnil] using hcheck))

theorem mapData_rejects (h : (mapData host data mapping total).ret ≠ 0) :
    (mapData host data mapping total).host = host ∧
      (mapData host data mapping total).data.sg = [] ∧
      (mapData host data mapping total).data.sg_count = 0 := by
  obtain ⟨_, hm⟩ | ⟨_, _, hm⟩ | hm := mapData_cases host data mapping total
  · simp [hm]
  · rw [hm] at h
    exact absurd rfl h
  · simp [hm]

/-- An accepted list: the cursor is set to its start. -/
theorem mapData_accepts (h : (mapData host data mapping total).ret = 0) :
    (mapData host data mapping total).data =
        { data with sg_count := mapping.length, sg := mapping } ∧
      (∀ s ∈ mapping, Supported s) ∧ (segmentBytes mapping).length = total.toNat ∧
      Cursor mapping (mapData host data mapping total).host [] := by
  obtain ⟨_, hm⟩ | ⟨hne, hcheck, hm⟩ | hm := mapData_cases host data mapping total
  · rw [hm] at h
    exact absurd h (by decide : -ENOMEM ≠ 0)
  · obtain ⟨hsup, hsum⟩ := checkSegments_some hcheck (by simp [BitVec.le_def])
    obtain ⟨s, behind, rfl⟩ := List.exists_cons_of_ne_nil hne
    rw [hm]
    refine ⟨rfl, hsup, by simpa using hsum.symm, [], s, behind, ?_⟩
    exact {
      split := rfl
      sg := rfl
      count := rfl
      index := rfl
      offset := by simp [BitVec.le_def]
      aligned := Nat.dvd_zero _
      bytes := rfl
      pieces := List.forall_mem_nil _
      submitted := rfl }
  · rw [hm] at h
    exact absurd h (by decide : -EINVAL ≠ 0)

theorem usesDma_total (h : usesDma data = true) : 0 < data.total := by
  simp only [usesDma, Bool.and_eq_true, decide_eq_true_eq] at h
  have hle : 512 ≤ data.total.toNat := h.1.2
  rw [BitVec.lt_def]
  exact Nat.lt_of_lt_of_le (by decide) hle

theorem transfer_running (hw : 32 ≤ w) {env : Env} {m : Mapped w} (hdma : usesDma m.data = true)
    (hcursor : Cursor segs m.host []) (hsup : ∀ s ∈ segs, Supported s)
    (hlen : (segmentBytes segs).length = m.data.total.toNat)
    (hwait : ∀ n, env.wait_l2_irq n = 0) (hstart : ∀ n, env.l2_start_dma n = 0) (n : Nat) :
    Running env segs m.data.total n (transfer env m n) := by
  induction n with
  | zero =>
    have hlt : m.host.dma_submitted < m.data.total := by
      rw [BitVec.lt_def, hcursor.submitted hlen]
      exact usesDma_total hdma
    let t : Transfer w := ⟨m.host, [], none⟩
    have hsetup : transfer env m 0 = submit env t := if_pos hdma
    have hc : Cursor segs t.host t.chunks := hcursor
    obtain ⟨hnext, hnone, hlength⟩ := submit_cursor hw hc hsup hlen hlt hstart
    rw [hsetup]
    exact ⟨hnext, Or.inl ⟨hnone, by rw [hlength]; exact Nat.succ_pos _⟩⟩
  | succ n ih =>
    rw [transfer, Function.iterate_succ_apply']
    exact waitDma_running hw ih hsup hlen hwait hstart

/-- What a transfer of `segs` has handed out at any time. -/
structure Tiles (segs : List (Segment w)) (t : Transfer w) : Prop where
  pieces : ∀ c ∈ t.chunks, Piece segs c
  covered : chunkBytes t.chunks <+: segmentBytes segs
  submitted : t.host.dma_submitted.toNat = (t.chunks.map fun c => c.bytes.toNat).sum

theorem Running.tiles {env : Env} {n : Nat} {t : Transfer w} (h : Running env segs total n t)
    (hlen : (segmentBytes segs).length = total.toNat) : Tiles segs t := by
  have hsubmitted := h.cursor.submitted hlen
  obtain ⟨done, s, behind, hat⟩ := h.cursor
  exact ⟨hat.pieces, hat.covered, hsubmitted.trans (chunkBytes_length t.chunks)⟩

theorem submit_exit (env : Env) (t : Transfer w) (ret : Int) :
    (submit env t).exit ≠ some (.dataEnd ret) := by
  rw [submit]
  cases nextDmaChunk t.host with
  | mk c host' =>
    cases c with
    | none => simp
    | some c =>
      by_cases hret : env.l2_start_dma t.chunks.length = 0 <;> simp [hret]

/-- The loop turns to the data-end check when everything is submitted, and not before. -/
theorem Running.leaves {env : Env} {n : Nat} {t : Transfer w}
    (h : Running env segs data.total n t) (hexit : t.exit = none)
    (hlen : (segmentBytes segs).length = data.total.toNat)
    (hwait : ∀ n, env.wait_l2_irq n = 0) :
    (waitDma env data t).exit = some (.dataEnd (dataEnd env)) ↔
      t.host.dma_submitted = data.total := by
  by_cases hlt : t.host.dma_submitted < data.total
  · have hstep : waitDma env data t = submit env t := by
      simp [waitDma, hexit, hwait, hlt]
    rw [hstep]
    exact iff_of_false (submit_exit env t _) (BitVec.ne_of_lt hlt)
  · have hstep : waitDma env data t = { t with exit := some (.dataEnd (dataEnd env)) } := by
      simp [waitDma, hexit, hwait, hlt]
    rw [hstep]
    exact iff_of_true rfl
      (BitVec.le_antisymm (h.cursor.submitted_le hlen) (BitVec.not_lt.mp hlt))

theorem Running.submitted {env : Env} {n : Nat} {t : Transfer w} {ret : Int}
    (h : Running env segs total n t) (hexit : t.exit = some (.dataEnd ret)) :
    t.host.dma_submitted = total := by
  obtain ⟨hnone, _⟩ | ⟨_, htotal⟩ := h.exit
  · simp [hnone] at hexit
  · exact htotal

/-- Every chunk moves at least one byte, so the list is handed out after finitely many passes. -/
theorem Running.finished {env : Env} {t : Transfer w}
    (h : Running env segs total total.toNat t)
    (hlen : (segmentBytes segs).length = total.toNat) :
    t.exit = some (.dataEnd (dataEnd env)) := by
  obtain ⟨hexit, hn⟩ | ⟨hexit, _⟩ := h.exit
  · have htiles := h.tiles hlen
    have hbytes : t.chunks.length ≤ (t.chunks.map fun c => c.bytes.toNat).sum := by
      rw [← List.length_map (fun c : Chunk w => c.bytes.toNat)]
      apply List.length_le_sum_of_one_le
      intro k hk
      obtain ⟨c, hc, rfl⟩ := List.mem_map.mp hk
      exact (htiles.pieces c hc).nonempty
    have hle := htiles.covered.length_le
    rw [chunkBytes_length] at hle
    omega
  · exact hexit

/-- The chunks of a mapped list tile it; a list that is not accepted leaves no trace. -/
theorem chunks_tile (hw : 32 ≤ w) (env : Env) (host : Host w) (data : Data w)
    (mapping : List (Segment w)) (hdma : usesDma data = true)
    (hwait : ∀ n, env.wait_l2_irq n = 0) (hstart : ∀ n, env.l2_start_dma n = 0) :
    let m := mapData host data mapping data.total
    (m.ret = 0 →
      (∀ n, let t := transfer env m n
        Tiles mapping t ∧
          (t.host.dma_submitted < data.total → (nextDmaChunk t.host).1.isSome) ∧
          (∀ ret, t.exit ≠ some (.failed ret)) ∧
          (t.exit = none → ((waitDma env m.data t).exit = some (.dataEnd (dataEnd env)) ↔
            t.host.dma_submitted = data.total))) ∧
      ∃ n, let t := transfer env m n
        t.exit = some (.dataEnd (dataEnd env)) ∧ t.host.dma_submitted = data.total ∧
          chunkBytes t.chunks = segmentBytes mapping) ∧
    (m.ret ≠ 0 → m.host = host ∧ m.data.sg = [] ∧ m.data.sg_count = 0) := by
  intro m
  refine ⟨fun hret => ?_, mapData_rejects⟩
  obtain ⟨hdata, hsup, hlen, hcursor⟩ := mapData_accepts hret
  have htotal : m.data.total = data.total := by
    rw [hdata]
    rfl
  have hdma' : usesDma m.data = true := by
    rw [hdata]
    exact hdma
  rw [← htotal] at hlen ⊢
  have hrun : ∀ n, Running env mapping m.data.total n (transfer env m n) :=
    transfer_running hw hdma' hcursor hsup hlen hwait hstart
  refine ⟨fun n => ⟨(hrun n).tiles hlen, ?_, ?_, ?_⟩, m.data.total.toNat, ?_⟩
  · intro hlt
    obtain ⟨c, host', hnext, _⟩ := (hrun n).cursor.next hw hsup hlen hlt
    rw [hnext]
    rfl
  · intro ret hfailed
    obtain ⟨hexit, _⟩ | ⟨hexit, _⟩ := (hrun n).exit <;> simp [hexit] at hfailed
  · intro hexit
    exact (hrun n).leaves hexit hlen hwait
  · have hfinished := (hrun m.data.total.toNat).finished hlen
    have hsubmitted := (hrun m.data.total.toNat).submitted hfinished
    have hcovered := ((hrun m.data.total.toNat).tiles hlen).covered
    refine ⟨hfinished, hsubmitted, hcovered.eq_of_length ?_⟩
    rw [← (hrun m.data.total.toNat).cursor.submitted hlen, hsubmitted, hlen]

def quiet : Env where
  wait_l2_irq := fun _ => 0
  l2_start_dma := fun _ => 0
  wait_data_irq := (0, STA_DATAEND)
  datacnt := 0

def idle : Host 32 := ⟨[], 0, 0, 0, 0⟩

def seventeenBlocks : Data 32 := ⟨512, 17, 0, []⟩

def twoSegments : List (Segment 32) := [⟨0x30000000, 8256⟩, ⟨0x30100040, 448⟩]

theorem chunks_tile_two :
    let m := mapData idle seventeenBlocks twoSegments seventeenBlocks.total
    m.ret = 0 ∧ ∃ n, let t := transfer quiet m n
      t.exit = some (.dataEnd (dataEnd quiet)) ∧ t.host.dma_submitted = seventeenBlocks.total ∧
        chunkBytes t.chunks = segmentBytes twoSegments :=
  ⟨by decide, ((chunks_tile (by decide) quiet idle seventeenBlocks twoSegments (by decide)
    (fun _ => rfl) (fun _ => rfl)).1 (by decide)).2⟩

example : (transfer quiet (mapData idle seventeenBlocks twoSegments seventeenBlocks.total)
    2).chunks.map (fun c => (c.address, c.bytes)) =
      [(0x30000000, 8192), (0x30002000, 64), (0x30100040, 448)] := by decide

end AipcOs.MmcDma
