import AipcOs.ByteFrames

/-! aipc_nand_dump: the copy stub that reads a batch of pages into DDR, and the host loop that
runs it batch by batch and writes the file. -/
namespace AipcOs.NandCopy
open ByteMemory WordBits WordPatch StructBytes ByteFrames

def PARAM_BASE : Word := 0x48000040
def DDR_BASE : Nat := 0x30000000
def DDR_USABLE : Nat := 63 * 1024 * 1024

structure NfProbeParam where
  counts : Word
  command : Word
  timing_cfg0 : Word
  timing_cfg1 : Word
  delay_pair : Word

/-- The helpers of the bootrom on a chip that holds `raw`, with what they are relied on for. -/
structure Bootrom where
  State : Type
  /-- The page that is read, and how many of its bytes were. -/
  page : State → Word
  pos : State → Nat
  raw : Word → Nat → Byte
  hw_init : State → (nfc_t0 nfc_t1 : Word) → State
  issue_probe_sequence : State → NfProbeParam → Word → State
  read_chunk_to_buf : State → Mem → (dst n : Word) → Bool × State × Mem
  issued : ∀ s p n, page (issue_probe_sequence s p n) = n ∧ pos (issue_probe_sequence s p n) = 0
  inside : ∀ s m dst n, Frame dst n.toNat m (read_chunk_to_buf s m dst n).2.2
  delivers : ∀ s m dst n, (read_chunk_to_buf s m dst n).1 = true →
    readBytes (read_chunk_to_buf s m dst n).2.2 dst n.toNat =
        (List.range n.toNat).map (fun i => raw (page s) (pos s + i)) ∧
      page (read_chunk_to_buf s m dst n).2.1 = page s ∧
      pos (read_chunk_to_buf s m dst n).2.1 = pos s + n.toNat

structure Machine (b : Bootrom) where
  rom : b.State
  mem : Mem

structure ChunkRead where
  dst : Word
  size : Word
  ok : Bool

structure Reads (b : Bootrom) where
  failed : Bool
  machine : Machine b
  calls : List ChunkRead

def readChunk {b : Bootrom} (dst size : Word) (m : Machine b) : Reads b :=
  let r := b.read_chunk_to_buf m.rom m.mem dst size
  ⟨!r.1, ⟨r.2.1, r.2.2⟩, [⟨dst, size, r.1⟩]⟩

def Reads.andThen {b : Bootrom} (d : Reads b) (next : Machine b → Reads b) : Reads b :=
  if d.failed then d
  else { next d.machine with calls := d.calls ++ (next d.machine).calls }

def readChunks {b : Bootrom} (oob_size : Word) : Nat → (dst : Word) → Machine b → Reads b
  | 0, dst, m => readChunk dst oob_size m
  | left + 1, dst, m => (readChunk dst 512 m).andThen (readChunks oob_size left (dst + 512))

def fillWords : Nat → Word → Mem → Mem
  | 0, _, m => m
  | words + 1, p, m => fillWords words (p + 4) (store32 m p 0xFFFFFFFF)

def fillAddresses : Nat → Word → List Word
  | 0, _ => []
  | words + 1, p => (p &&& ~~~3) :: fillAddresses words (p + 4)

def fill_ff (dst size : Word) (m : Mem) : Mem := fillWords (size >>> 2).toNat dst m

structure PageRead where
  page : Word
  calls : List ChunkRead
  filled : List Word

def PageRead.failed (p : PageRead) : Bool := p.calls.any fun r => !r.ok

def PageRead.writes (p : PageRead) : List (Word × Nat) :=
  p.calls.map (fun r => (r.dst, r.size.toNat)) ++ p.filled.map (fun a => (a, 4))

structure NandCopyParams where
  start_page : Word
  batch_pages : Word
  ddr_dest : Word
  chunks_per_page : Word
  read_param : NfProbeParam
  nfc_t0 : Word
  nfc_t1 : Word

def NandCopyParams.oob_size (p : NandCopyParams) : Word := p.chunks_per_page <<< 4

def NandCopyParams.raw_page_size (p : NandCopyParams) : Word := p.chunks_per_page * 528

def param (m : Mem) (k : Nat) : Word := load32 m (PARAM_BASE + BitVec.ofNat 32 (4 * k))

def snapshot (m : Mem) : NandCopyParams where
  start_page := param m 0
  batch_pages := param m 1
  ddr_dest := param m 2
  chunks_per_page := param m 3
  read_param := ⟨param m 4, param m 5, param m 6, param m 7, param m 8⟩
  nfc_t0 := param m 9
  nfc_t1 := param m 10

structure Copy (b : Bootrom) where
  machine : Machine b
  pages_done : Word
  error_count : Word
  pages : List PageRead

variable {b : Bootrom}

def readPage (p : NandCopyParams) (i : Word) (c : Copy b) : Copy b :=
  let page := p.start_page + i
  let page_base := p.ddr_dest + i * p.raw_page_size
  let rom := b.issue_probe_sequence c.machine.rom p.read_param page
  let d := readChunks p.oob_size p.chunks_per_page.toNat page_base ⟨rom, c.machine.mem⟩
  { machine :=
      if d.failed then { d.machine with mem := fill_ff page_base p.raw_page_size d.machine.mem }
      else d.machine
    pages_done := c.pages_done + 1
    error_count := if d.failed then c.error_count + 1 else c.error_count
    pages := c.pages ++ [⟨page, d.calls,
      if d.failed then fillAddresses (p.raw_page_size >>> 2).toNat page_base else []⟩] }

def copyPages (p : NandCopyParams) (m : Machine b) : Nat → Copy b
  | 0 => ⟨m, 0, 0, []⟩
  | n + 1 => readPage p (BitVec.ofNat 32 n) (copyPages p m n)

def storeResult (m : Mem) (status pages_done error_count : Word) : Mem :=
  store32 (store32 (store32 m PARAM_BASE status) (PARAM_BASE + 4) pages_done)
    (PARAM_BASE + 8) error_count

def stub_main (m : Machine b) : Machine b × List PageRead :=
  let p := snapshot m.mem
  let c := copyPages p ⟨b.hw_init m.rom p.nfc_t0 p.nfc_t1, m.mem⟩ p.batch_pages.toNat
  let status := if c.error_count > 0 then 1 else 0
  (⟨c.machine.rom, storeResult c.machine.mem status c.pages_done c.error_count⟩, c.pages)

inductive Failure where
  | structError
  | timeout
  deriving DecidableEq

structure Options where
  total_pages : Nat
  chunks_per_page : Nat
  ddr_base : Nat
  probe_param : NfProbeParam
  timing_cfg0 : Word
  timing_cfg1 : Word

def Options.raw_page_size (o : Options) : Nat := o.chunks_per_page * 528

def Options.batch_pages (o : Options) : Nat := DDR_USABLE / o.raw_page_size

def Options.num_batches (o : Options) : Nat :=
  (o.total_pages + o.batch_pages - 1) / o.batch_pages

def packWords (vs : List Nat) : Except Failure (List Byte) :=
  if vs.all (· < 2 ^ 32) then .ok (vs.flatMap fun v => wordBytes (BitVec.ofNat 32 v))
  else .error .structError

def packNandCopyParams (o : Options) (start_page this_batch : Nat) : Except Failure (List Byte) :=
  packWords [start_page, this_batch, o.ddr_base, o.chunks_per_page, o.probe_param.counts.toNat,
    o.probe_param.command.toNat, o.probe_param.timing_cfg0.toNat, o.probe_param.timing_cfg1.toNat,
    o.probe_param.delay_pair.toNat, o.timing_cfg0.toNat, o.timing_cfg1.toNat]

structure Batch where
  asked : Nat
  status : Nat
  pages_done : Nat
  error_count : Nat
  data : List Byte
  pages : List PageRead

def runBatch (o : Options) (timeout : Nat → Bool) (batch_idx : Nat) (m : Machine b) :
    Except Failure (Machine b × Batch) := do
  let start := batch_idx * o.batch_pages
  let this_batch := min o.batch_pages (o.total_pages - start)
  let batch_bytes := this_batch * o.raw_page_size
  let params ← packNandCopyParams o start this_batch
  if timeout batch_idx then .error .timeout
  else
    let (m, pages) := stub_main { m with mem := storeBytes m.mem PARAM_BASE params }
    let result := readBytes m.mem PARAM_BASE 12
    let data := readBytes m.mem (BitVec.ofNat 32 o.ddr_base) batch_bytes
    .ok (m, ⟨this_batch, u32 result 0, u32 result 4, u32 result 8, data, pages⟩)

structure Dump (b : Bootrom) where
  machine : Machine b
  file : List Byte
  total_errors : Nat
  batches : List Batch

def dumpBatches (o : Options) (timeout : Nat → Bool) (m : Machine b) : Nat → Except Failure (Dump b)
  | 0 => .ok ⟨m, [], 0, []⟩
  | n + 1 => do
    let d ← dumpBatches o timeout m n
    let (m, r) ← runBatch o timeout n d.machine
    .ok ⟨m, d.file ++ r.data, d.total_errors + r.error_count, d.batches ++ [r]⟩

def dump (o : Options) (timeout : Nat → Bool) (m : Machine b) : Except Failure (Dump b) :=
  dumpBatches o timeout m o.num_batches

def Bootrom.bytes (b : Bootrom) (page : Word) (pos n : Nat) : List Byte :=
  (List.range n).map fun i => b.raw page (pos + i)

def pageBytes (b : Bootrom) (raw_page_size : Nat) (p : PageRead) : List Byte :=
  if p.failed then List.replicate raw_page_size 0xFF else b.bytes p.page 0 raw_page_size

def Dump.pages (d : Dump b) : List PageRead := d.batches.flatMap Batch.pages

/-- The file holds the first `total` pages, and the batches did what they were asked for. -/
structure Reassembled (o : Options) (total : Nat) (d : Dump b) : Prop where
  requests : (d.pages.map fun p => p.page.toNat) = List.range total
  file : d.file = d.pages.flatMap (pageBytes b o.raw_page_size)
  inside : ∀ r ∈ d.batches, ∀ p ∈ r.pages, ∀ w ∈ p.writes,
    InWindow (BitVec.ofNat 32 o.ddr_base) (r.asked * o.raw_page_size) w.1 w.2
  pages_done : ∀ r ∈ d.batches, r.pages_done = r.asked ∧ r.pages.length = r.asked
  total_errors : d.total_errors = d.pages.countP PageRead.failed

structure DdrBuffer (base : Nat) : Prop where
  aligned : base % 4 = 0
  lower : 0x30000000 ≤ base
  upper : base + DDR_USABLE ≤ 0x34000000

theorem bytes_add (page : Word) (pos n k : Nat) :
    b.bytes page pos (n + k) = b.bytes page pos n ++ b.bytes page (pos + n) k := by
  rw [Bootrom.bytes, List.range_add, List.map_append, List.map_map]
  simp only [Function.comp_def, ← Nat.add_assoc]
  rfl

structure Delivers (n : Nat) (dst : Word) (m : Machine b) (d : Reads b) : Prop where
  frame : Frame dst n m.mem d.machine.mem
  failed : d.failed = d.calls.any fun r => !r.ok
  inside : ∀ r ∈ d.calls, InWindow dst n r.dst r.size.toNat
  data : d.failed = false → readBytes d.machine.mem dst n =
    b.bytes (b.page m.rom) (b.pos m.rom) n
  state : d.failed = false → b.page d.machine.rom = b.page m.rom ∧
    b.pos d.machine.rom = b.pos m.rom + n

theorem readChunk_delivers (dst size : Word) (m : Machine b) :
    Delivers size.toNat dst m (readChunk dst size m) := by
  have hdelivers := b.delivers m.rom m.mem dst size
  constructor
  · exact b.inside m.rom m.mem dst size
  · simp [readChunk]
  · intro r hr
    obtain rfl := List.mem_singleton.mp hr
    simp [InWindow]
  · intro hok
    have htrue : (b.read_chunk_to_buf m.rom m.mem dst size).1 = true := by simpa [readChunk] using hok
    exact (hdelivers htrue).1
  · intro hok
    have htrue : (b.read_chunk_to_buf m.rom m.mem dst size).1 = true := by simpa [readChunk] using hok
    exact (hdelivers htrue).2

theorem Delivers.andThen {n k : Nat} {dst : Word} {m : Machine b} {d : Reads b}
    {next : Machine b → Reads b} (hd : Delivers n dst m d)
    (hnext : ∀ m', Delivers k (dst + BitVec.ofNat 32 n) m' (next m')) (hfits : n + k < 2 ^ 32) :
    Delivers (n + k) dst m (d.andThen next) := by
  have hfirst : Frame dst (n + k) m.mem d.machine.mem := fun x hx => hd.frame x (by omega)
  have hcalls : ∀ r ∈ d.calls, InWindow dst (n + k) r.dst r.size.toNat := fun r hr =>
    (hd.inside r hr).trans (Nat.le_add_right n k)
  rw [Reads.andThen]
  split
  · rename_i hfail
    exact ⟨hfirst, hd.failed, hcalls, fun h => absurd hfail (by simp [h]),
      fun h => absurd hfail (by simp [h])⟩
  · rename_i hok
    have hdone : d.failed = false := by simpa using hok
    have h := hnext d.machine
    obtain ⟨hpage, hpos⟩ := hd.state hdone
    constructor
    · exact hfirst.trans (h.frame.widen (Nat.le_refl _) hfits.le)
    · simp only [List.any_append, ← hd.failed, hdone, Bool.false_or, h.failed]
    · intro r hr
      obtain hr | hr := List.mem_append.mp hr
      · exact hcalls r hr
      · exact (h.inside r hr).widen (Nat.le_refl _) hfits
    · intro hlast
      rw [readBytes_add, h.frame.readBytes_below hfits.le, hd.data hdone, h.data hlast, hpage, hpos,
        bytes_add]
    · intro hlast
      obtain ⟨hpage', hpos'⟩ := h.state hlast
      exact ⟨hpage'.trans hpage, by rw [hpos', hpos, Nat.add_assoc]⟩

theorem readChunks_delivers (oob_size : Word) (left : Nat) (dst : Word) (m : Machine b)
    (hfits : left * 512 + oob_size.toNat < 2 ^ 32) :
    Delivers (left * 512 + oob_size.toNat) dst m (readChunks oob_size left dst m) := by
  induction left generalizing dst m with
  | zero =>
    rw [Nat.zero_mul, Nat.zero_add]
    exact readChunk_delivers dst oob_size m
  | succ left ih =>
    have hsplit : (left + 1) * 512 + oob_size.toNat = 512 + (left * 512 + oob_size.toNat) := by ring
    rw [hsplit] at hfits ⊢
    exact Delivers.andThen (readChunk_delivers dst 512 m) (fun m' => ih (dst + 512) m' (by omega))
      hfits

theorem wordOf_add_four (p : Word) : wordOf (p + 4) = wordOf p + 4 := by
  have h := wordOf_toNat p
  have h' := wordOf_toNat (p + 4)
  have hal := (aligned_iff _).1 (wordOf_aligned p)
  have hal' := (aligned_iff _).1 (wordOf_aligned (p + 4))
  bv_omega

theorem fillWords_eq (words : Nat) (p : Word) (m : Mem) :
    fillWords words p m = storeBytes m (wordOf p) (List.replicate (4 * words) 0xFF) := by
  induction words generalizing p m with
  | zero => rfl
  | succ words ih =>
    have hword : store32 m p 0xFFFFFFFF = storeBytes m (wordOf p) (List.replicate 4 0xFF) := rfl
    rw [fillWords, ih, hword, wordOf_add_four, Nat.mul_succ, Nat.add_comm, List.replicate_add,
      storeBytes_append]
    rfl

/-- The fill stays in what it is asked to fill. -/
theorem fillAddresses_inside {words : Nat} {p : Word} (ha : Aligned p)
    (hfits : 4 * words < 2 ^ 32) : ∀ a ∈ fillAddresses words p, InWindow p (4 * words) a 4 := by
  induction words generalizing p with
  | zero => exact fun a ha => absurd ha List.not_mem_nil
  | succ words ih =>
    have hnext : Aligned (p + 4) := aligned_add ha (Nat.dvd_refl 4)
    intro a hmem
    rw [fillAddresses, aligned_mask p ha] at hmem
    obtain rfl | hmem := List.mem_cons.mp hmem
    · simp [InWindow, Nat.mul_succ]
    · have hin : InWindow (p + BitVec.ofNat 32 4) (4 * words) a 4 := ih hnext (by omega) a hmem
      exact hin.widen (by omega) hfits

structure Fits (p : NandCopyParams) (c n : Nat) : Prop where
  chunks : p.chunks_per_page.toNat = c
  pages : p.batch_pages.toNat = n
  room : n * (c * 528) ≤ DDR_USABLE
  aligned : Aligned p.ddr_dest

namespace Fits
variable {p : NandCopyParams} {c n : Nat}

theorem raw (h : Fits p c n) (hn : 0 < n) : c * 528 ≤ DDR_USABLE :=
  (Nat.le_mul_of_pos_left _ hn).trans h.room

theorem raw_page_size (h : Fits p c n) (hn : 0 < n) : p.raw_page_size.toNat = c * 528 := by
  have hraw : c * 528 ≤ DDR_USABLE := h.raw hn
  exact mul_toNat h.chunks rfl (hraw.trans_lt (by decide))

theorem oob_size (h : Fits p c n) (hn : 0 < n) : p.oob_size.toNat = c * 16 := by
  have hraw : c * 528 ≤ 63 * 1024 * 1024 := h.raw hn
  rw [NandCopyParams.oob_size, BitVec.toNat_shiftLeft, h.chunks, Nat.shiftLeft_eq]
  omega

theorem words (h : Fits p c n) (hn : 0 < n) : 4 * (p.raw_page_size >>> 2).toNat = c * 528 := by
  rw [BitVec.toNat_ushiftRight, h.raw_page_size hn, Nat.shiftRight_eq_div_pow]
  omega

/-- Where page `i` of the batch goes. -/
theorem page_base (h : Fits p c n) {i : Nat} (hi : i < n) :
    p.ddr_dest + BitVec.ofNat 32 i * p.raw_page_size =
      p.ddr_dest + BitVec.ofNat 32 (i * (c * 528)) := by
  have hn := Nat.zero_lt_of_lt hi
  rw [BitVec.ofNat_mul, ← h.raw_page_size hn, BitVec.ofNat_toNat, BitVec.setWidth_eq]

theorem end_le (h : Fits p c n) {i : Nat} (hi : i < n) : i * (c * 528) + c * 528 ≤ DDR_USABLE := by
  have hle := Nat.mul_le_mul_right (c * 528) (Nat.succ_le_of_lt hi)
  rw [Nat.succ_mul] at hle
  exact hle.trans h.room

end Fits

structure PageDone (raw : Nat) (base : Word) (k k' : Copy b) (q : PageRead) : Prop where
  pages : k'.pages = k.pages ++ [q]
  frame : Frame base raw k.machine.mem k'.machine.mem
  data : readBytes k'.machine.mem base raw = pageBytes b raw q
  inside : ∀ w ∈ q.writes, InWindow base raw w.1 w.2
  pages_done : k'.pages_done = k.pages_done + 1
  error_count : k'.error_count = if q.failed then k.error_count + 1 else k.error_count

variable {p : NandCopyParams} {c n : Nat}

def pageReads (p : NandCopyParams) (i : Word) (k : Copy b) : Reads b :=
  readChunks p.oob_size p.chunks_per_page.toNat (p.ddr_dest + i * p.raw_page_size)
    ⟨b.issue_probe_sequence k.machine.rom p.read_param (p.start_page + i), k.machine.mem⟩

theorem pageReads_delivers (h : Fits p c n) (hn : 0 < n) (i : Word) (k : Copy b) :
    Delivers (c * 528) (p.ddr_dest + i * p.raw_page_size)
      ⟨b.issue_probe_sequence k.machine.rom p.read_param (p.start_page + i), k.machine.mem⟩
      (pageReads p i k) := by
  have hraw : c * 528 ≤ 63 * 1024 * 1024 := h.raw hn
  have hsum : c * 528 = p.chunks_per_page.toNat * 512 + p.oob_size.toNat := by
    rw [h.chunks, h.oob_size hn]
    ring
  rw [hsum]
  exact readChunks_delivers _ _ _ _ (by omega)

theorem Delivers.calls_inside {raw : Nat} {base : Word} {m : Machine b} {d : Reads b}
    (hd : Delivers raw base m d) :
    ∀ w ∈ d.calls.map (fun r => (r.dst, r.size.toNat)), InWindow base raw w.1 w.2 := by
  intro w hw
  obtain ⟨r, hr, rfl⟩ := List.mem_map.mp hw
  exact hd.inside r hr

/-- All chunks of the page were read. -/
theorem Delivers.pageDone {raw : Nat} {base page : Word} {m : Machine b} {d : Reads b}
    {k : Copy b} (hd : Delivers raw base m d) (hmem : m.mem = k.machine.mem)
    (hpage : b.page m.rom = page ∧ b.pos m.rom = 0) (hok : d.failed = false) :
    PageDone raw base k ⟨d.machine, k.pages_done + 1, k.error_count,
      k.pages ++ [⟨page, d.calls, []⟩]⟩ ⟨page, d.calls, []⟩ := by
  have hgood : (PageRead.mk page d.calls []).failed = false := hd.failed.symm.trans hok
  constructor
  · rfl
  · exact hmem ▸ hd.frame
  · have hdata := hd.data hok
    rw [hpage.1, hpage.2] at hdata
    rw [pageBytes, hgood]
    exact hdata
  · intro w hw
    rw [PageRead.writes, List.map_nil, List.append_nil] at hw
    exact hd.calls_inside w hw
  · rfl
  · rw [hgood]
    rfl

/-- The chunks already written of a page that failed are written over. -/
theorem Delivers.pageFilled {raw : Nat} {base page size : Word} {m : Machine b} {d : Reads b}
    {k : Copy b} (hd : Delivers raw base m d) (hmem : m.mem = k.machine.mem)
    (hal : Aligned base) (hsize : 4 * (size >>> 2).toNat = raw) (hfits : raw < 2 ^ 32)
    (hfail : d.failed = true) :
    PageDone raw base k
      ⟨⟨d.machine.rom, fill_ff base size d.machine.mem⟩, k.pages_done + 1, k.error_count + 1,
        k.pages ++ [⟨page, d.calls, fillAddresses (size >>> 2).toNat base⟩]⟩
      ⟨page, d.calls, fillAddresses (size >>> 2).toNat base⟩ := by
  have hbad : (PageRead.mk page d.calls (fillAddresses (size >>> 2).toNat base)).failed = true :=
    hd.failed.symm.trans hfail
  have hlen : (List.replicate raw (0xFF : Byte)).length = raw := List.length_replicate
  have hfill : fill_ff base size d.machine.mem =
      storeBytes d.machine.mem base (List.replicate raw 0xFF) := by
    rw [fill_ff, fillWords_eq, wordOf, aligned_mask base hal, hsize]
  constructor
  · rfl
  · have hframe := frame_storeBytes (m := d.machine.mem) (a := base) (hlen.trans_le hfits.le)
    rw [hlen] at hframe
    rw [← hmem, hfill]
    exact hd.frame.trans hframe
  · have hread := readBytes_storeBytes d.machine.mem base _ (hlen.trans_le hfits.le)
    rw [hlen] at hread
    rw [pageBytes, hbad, hfill]
    exact hread
  · intro w hw
    obtain hw | hw := List.mem_append.mp hw
    · exact hd.calls_inside w hw
    · obtain ⟨a, ha, rfl⟩ := List.mem_map.mp hw
      have hin := fillAddresses_inside hal (hsize.trans_lt hfits) a ha
      rwa [hsize] at hin
  · rfl
  · rw [hbad]
    rfl

theorem readPage_of_failed {i : Word} {k : Copy b} (hf : (pageReads p i k).failed = true) :
    readPage p i k =
      let base := p.ddr_dest + i * p.raw_page_size
      let d := pageReads p i k
      ⟨⟨d.machine.rom, fill_ff base p.raw_page_size d.machine.mem⟩, k.pages_done + 1,
        k.error_count + 1, k.pages ++ [⟨p.start_page + i, d.calls,
          fillAddresses (p.raw_page_size >>> 2).toNat base⟩]⟩ := by
  rw [pageReads] at hf
  simp only [readPage, pageReads, hf, if_true]

theorem readPage_of_ok {i : Word} {k : Copy b} (hf : (pageReads p i k).failed = false) :
    readPage p i k =
      ⟨(pageReads p i k).machine, k.pages_done + 1, k.error_count,
        k.pages ++ [⟨p.start_page + i, (pageReads p i k).calls, []⟩]⟩ := by
  rw [pageReads] at hf
  simp only [readPage, pageReads, hf, Bool.false_eq_true, if_false]

theorem readPage_done (h : Fits p c n) {i : Nat} (hi : i < n) (k : Copy b) :
    ∃ q, q.page = p.start_page + BitVec.ofNat 32 i ∧
      PageDone (c * 528) (p.ddr_dest + BitVec.ofNat 32 (i * (c * 528))) k
        (readPage p (BitVec.ofNat 32 i) k) q := by
  have hn := Nat.zero_lt_of_lt hi
  have hraw : c * 528 ≤ 63 * 1024 * 1024 := h.raw hn
  have hreads := pageReads_delivers h hn (BitVec.ofNat 32 i) k
  have hbase := h.page_base hi
  rw [← hbase]
  cases hf : (pageReads p (BitVec.ofNat 32 i) k).failed with
  | false =>
    rw [readPage_of_ok hf]
    exact ⟨_, rfl, hreads.pageDone rfl (b.issued _ _ _) hf⟩
  | true =>
    have hal : Aligned (p.ddr_dest + BitVec.ofNat 32 i * p.raw_page_size) := by
      rw [hbase]
      exact aligned_add h.aligned (Dvd.dvd.mul_left (Dvd.dvd.mul_left (by decide) c) i)
    rw [readPage_of_failed hf]
    exact ⟨_, rfl, hreads.pageFilled rfl hal (h.words hn) (by omega) hf⟩

structure Copied (p : NandCopyParams) (c i : Nat) (m : Machine b) (k : Copy b) : Prop where
  frame : Frame p.ddr_dest (i * (c * 528)) m.mem k.machine.mem
  requests : k.pages.map PageRead.page =
    (List.range i).map fun j => p.start_page + BitVec.ofNat 32 j
  data : readBytes k.machine.mem p.ddr_dest (i * (c * 528)) =
    k.pages.flatMap (pageBytes b (c * 528))
  inside : ∀ q ∈ k.pages, ∀ w ∈ q.writes, InWindow p.ddr_dest (i * (c * 528)) w.1 w.2
  pages_done : k.pages_done = BitVec.ofNat 32 i
  error_count : k.error_count = BitVec.ofNat 32 (k.pages.countP PageRead.failed)

theorem Copied.step {i : Nat} {m : Machine b} {k k' : Copy b} {q : PageRead}
    (h : Copied p c i m k) (hfits : i * (c * 528) + c * 528 < 2 ^ 32)
    (hpage : q.page = p.start_page + BitVec.ofNat 32 i)
    (hdone : PageDone (c * 528) (p.ddr_dest + BitVec.ofNat 32 (i * (c * 528))) k k' q) :
    Copied p c (i + 1) m k' := by
  have hnext : (i + 1) * (c * 528) = i * (c * 528) + c * 528 := Nat.succ_mul i _
  constructor
  · have hwide := hdone.frame.widen (Nat.le_refl _) hfits.le
    have hold : Frame p.ddr_dest (i * (c * 528) + c * 528) m.mem k.machine.mem :=
      fun x hx => h.frame x (by omega)
    exact hnext ▸ hold.trans hwide
  · rw [hdone.pages, List.map_append, h.requests, List.range_succ, List.map_append, List.map_cons,
      List.map_nil, List.map_cons, List.map_nil, hpage]
  · rw [hnext, readBytes_add, hdone.frame.readBytes_below hfits.le, h.data, hdone.data,
      hdone.pages, List.flatMap_append, List.flatMap_singleton]
  · intro r hr w hw
    rw [hdone.pages] at hr
    rw [hnext]
    obtain hr | hr := List.mem_append.mp hr
    · exact (h.inside r hr w hw).trans (Nat.le_add_right _ _)
    · obtain rfl := List.mem_singleton.mp hr
      exact (hdone.inside w hw).widen (Nat.le_refl _) hfits
  · rw [hdone.pages_done, h.pages_done, BitVec.ofNat_add]
    rfl
  · rw [hdone.error_count, h.error_count, hdone.pages, List.countP_append, List.countP_singleton,
      BitVec.ofNat_add]
    cases q.failed <;> simp

theorem copyPages_copied (h : Fits p c n) (m : Machine b) (i : Nat) (hi : i ≤ n) :
    Copied p c i m (copyPages p m i) := by
  induction i with
  | zero =>
    rw [copyPages]
    refine ⟨Frame.refl, rfl, ?_, ?_, rfl, rfl⟩
    · rw [Nat.zero_mul]
      rfl
    · exact fun q hq => absurd hq List.not_mem_nil
  | succ i ih =>
    have hend : i * (c * 528) + c * 528 ≤ 63 * 1024 * 1024 := h.end_le hi
    obtain ⟨q, hpage, hdone⟩ := readPage_done h hi (copyPages p m i)
    exact (ih (Nat.le_of_lt hi)).step (by omega) hpage hdone

theorem packWords_ok {vs : List Nat} (h : ∀ v ∈ vs, v < 2 ^ 32) :
    packWords vs = .ok ((vs.map (BitVec.ofNat 32)).flatMap wordBytes) := by
  have hall : vs.all (· < 2 ^ 32) = true := List.all_eq_true.mpr fun v hv => decide_eq_true (h v hv)
  rw [packWords, if_pos hall, List.flatMap_map]

theorem param_stored {ws : List Word} {k : Nat} (m : Mem) (hlen : 4 * ws.length ≤ 2 ^ 32)
    (hk : k < ws.length) :
    param (storeBytes m PARAM_BASE (ws.flatMap wordBytes)) k = ws[k] := by
  have hbase : Aligned PARAM_BASE := by decide
  rw [param, load32_aligned _ _ (aligned_add hbase (Dvd.intro k rfl)),
    wordAt_storeWords hbase hlen hk]

/-- The stub finds the parameters that the host packed. -/
theorem snapshot_packed {o : Options} {start n : Nat} (m : Mem) (hstart : start < 2 ^ 32)
    (hn : n < 2 ^ 32) (hbase : o.ddr_base < 2 ^ 32) (hchunks : o.chunks_per_page < 2 ^ 32) :
    ∃ params, packNandCopyParams o start n = .ok params ∧
      snapshot (storeBytes m PARAM_BASE params) =
        ⟨BitVec.ofNat 32 start, BitVec.ofNat 32 n, BitVec.ofNat 32 o.ddr_base,
          BitVec.ofNat 32 o.chunks_per_page, o.probe_param, o.timing_cfg0, o.timing_cfg1⟩ := by
  refine ⟨_, packWords_ok ?_, ?_⟩
  · simp only [List.forall_mem_cons, List.not_mem_nil, false_implies, implies_true, and_true]
    exact ⟨hstart, hn, hbase, hchunks, BitVec.isLt _, BitVec.isLt _, BitVec.isLt _, BitVec.isLt _,
      BitVec.isLt _, BitVec.isLt _, BitVec.isLt _⟩
  · simp only [snapshot]
    rw [param_stored, param_stored, param_stored, param_stored, param_stored, param_stored,
      param_stored, param_stored, param_stored, param_stored, param_stored] <;>
    simp

theorem storeResult_eq (m : Mem) (status pages_done error_count : Word) :
    storeResult m status pages_done error_count =
      storeBytes m PARAM_BASE
        (wordBytes status ++ wordBytes pages_done ++ wordBytes error_count) := by
  rw [storeBytes_append, storeBytes_append, storeResult, store32_aligned _ PARAM_BASE _ (by decide),
    store32_aligned _ (PARAM_BASE + 4) _ (by decide),
    store32_aligned _ (PARAM_BASE + 8) _ (by decide)]
  rfl

/-- What the host reads back of the result block. -/
theorem u32_storeResult (m : Mem) (status pages_done error_count : Word) :
    let result := readBytes (storeResult m status pages_done error_count) PARAM_BASE 12
    u32 result 4 = pages_done.toNat ∧ u32 result 8 = error_count.toNat := by
  have hread := readBytes_storeBytes m PARAM_BASE
    (wordBytes status ++ wordBytes pages_done ++ wordBytes error_count) (by simp [wordBytes])
  dsimp only
  rw [storeResult_eq]
  change u32 (readBytes _ PARAM_BASE (wordBytes status ++ wordBytes pages_done ++
    wordBytes error_count).length) 4 = _ ∧ u32 (readBytes _ PARAM_BASE (wordBytes status ++
    wordBytes pages_done ++ wordBytes error_count).length) 8 = _
  rw [hread]
  exact ⟨le_wordBytes pages_done, le_wordBytes error_count⟩

theorem frame_storeResult (m : Mem) (status pages_done error_count : Word) :
    Frame PARAM_BASE 12 m (storeResult m status pages_done error_count) := by
  have hlen : (wordBytes status ++ wordBytes pages_done ++ wordBytes error_count).length = 12 := rfl
  have h : Frame PARAM_BASE _ m (storeBytes m PARAM_BASE _) :=
    frame_storeBytes (hlen.trans_le (by decide))
  rw [storeResult_eq]
  exact h

theorem stub_main_done (h : Fits p c n) {m : Machine b} (hp : snapshot m.mem = p) :
    ∃ k status, Copied p c n ⟨b.hw_init m.rom p.nfc_t0 p.nfc_t1, m.mem⟩ k ∧
      stub_main m = (⟨k.machine.rom,
        storeResult k.machine.mem status k.pages_done k.error_count⟩, k.pages) := by
  have hcopied := copyPages_copied h ⟨b.hw_init m.rom p.nfc_t0 p.nfc_t1, m.mem⟩ n (Nat.le_refl n)
  rw [stub_main, hp, h.pages]
  exact ⟨_, _, hcopied, rfl⟩

structure BatchDone (b : Bootrom) (o : Options) (start n : Nat) (r : Batch) : Prop where
  asked : r.asked = n
  requests : (r.pages.map fun p => p.page.toNat) = (List.range n).map (start + ·)
  data : r.data = r.pages.flatMap (pageBytes b o.raw_page_size)
  inside : ∀ p ∈ r.pages, ∀ w ∈ p.writes,
    InWindow (BitVec.ofNat 32 o.ddr_base) (n * o.raw_page_size) w.1 w.2
  pages_done : r.pages_done = n
  error_count : r.error_count = r.pages.countP PageRead.failed

structure Usable (o : Options) : Prop where
  chunks : 1 ≤ o.chunks_per_page
  raw : o.raw_page_size ≤ DDR_USABLE
  buffer : DdrBuffer o.ddr_base

structure Room (o : Options) (start n : Nat) : Prop where
  usable : Usable o
  start_lt : start < 2 ^ 32
  end_le : start + n ≤ 2 ^ 32
  pages : n * o.raw_page_size ≤ DDR_USABLE

namespace Room
variable {o : Options} {start : Nat}

theorem chunks_le (h : Room o start n) : o.chunks_per_page * 528 ≤ 63 * 1024 * 1024 :=
  h.usable.raw

theorem pages_le (h : Room o start n) : n ≤ 63 * 1024 * 1024 := by
  have hpages : n * (o.chunks_per_page * 528) ≤ 63 * 1024 * 1024 := h.pages
  have hc := h.usable.chunks
  have hone : n * 1 ≤ n * (o.chunks_per_page * 528) := Nat.mul_le_mul_left n (by omega)
  omega

theorem base_le (h : Room o start n) :
    0x30000000 ≤ o.ddr_base ∧ o.ddr_base + n * o.raw_page_size ≤ 0x34000000 :=
  ⟨h.usable.buffer.lower, (Nat.add_le_add_left h.pages _).trans h.usable.buffer.upper⟩

theorem fits (h : Room o start n) :
    Fits ⟨BitVec.ofNat 32 start, BitVec.ofNat 32 n, BitVec.ofNat 32 o.ddr_base,
      BitVec.ofNat 32 o.chunks_per_page, o.probe_param, o.timing_cfg0, o.timing_cfg1⟩
      o.chunks_per_page n := by
  have hchunks := h.chunks_le
  have hpages := h.pages_le
  have hbase := h.base_le
  have haligned := h.usable.buffer.aligned
  constructor
  · exact Nat.mod_eq_of_lt (by omega)
  · exact Nat.mod_eq_of_lt (by omega)
  · exact h.pages
  · have hword : (BitVec.ofNat 32 o.ddr_base).toNat = o.ddr_base := Nat.mod_eq_of_lt (by omega)
    rw [aligned_iff, hword, haligned]

/-- The result block lies outside the buffer. -/
theorem readBytes_result (h : Room o start n) (m : Mem) (status pages_done error_count : Word) :
    readBytes (storeResult m status pages_done error_count) (BitVec.ofNat 32 o.ddr_base)
      (n * o.raw_page_size) = readBytes m (BitVec.ofNat 32 o.ddr_base) (n * o.raw_page_size) := by
  have hbase := h.base_le
  have hword : (BitVec.ofNat 32 o.ddr_base).toNat = o.ddr_base := Nat.mod_eq_of_lt (by omega)
  apply (frame_storeResult m status pages_done error_count).readBytes_apart
  · rw [hword]
    change 0x48000040 + 12 ≤ _ ∨ _ ≤ 0x48000040
    omega
  · rw [hword]
    omega
  · decide

end Room

theorem runBatch_done {o : Options} {timeout : Nat → Bool} {batch_idx : Nat} {m : Machine b}
    (h : Room o (batch_idx * o.batch_pages)
      (min o.batch_pages (o.total_pages - batch_idx * o.batch_pages)))
    (htime : timeout batch_idx = false) :
    ∃ m' r, runBatch o timeout batch_idx m = .ok (m', r) ∧
      BatchDone b o (batch_idx * o.batch_pages)
        (min o.batch_pages (o.total_pages - batch_idx * o.batch_pages)) r := by
  rw [runBatch]
  generalize min o.batch_pages (o.total_pages - batch_idx * o.batch_pages) = n at h ⊢
  generalize batch_idx * o.batch_pages = start at h ⊢
  have hchunks := h.chunks_le
  have hpages := h.pages_le
  have hbase := h.base_le
  have hend := h.end_le
  obtain ⟨params, hpack, hsnap⟩ := snapshot_packed (o := o) m.mem h.start_lt
    (by omega : n < 2 ^ 32) (by omega) (by omega)
  obtain ⟨k, status, hcopied, hstub⟩ := stub_main_done (b := b) h.fits
    (m := ⟨m.rom, storeBytes m.mem PARAM_BASE params⟩) hsnap
  simp only [hpack, htime, hstub, bind, Except.bind, Bool.false_eq_true, if_false]
  have hlen : k.pages.length = n := by
    have hmap := congrArg List.length hcopied.requests
    rwa [List.length_map, List.length_map, List.length_range] at hmap
  refine ⟨_, _, rfl, rfl, ?_, ?_, ?_, ?_, ?_⟩
  · have hmap : (k.pages.map PageRead.page).map BitVec.toNat = _ :=
      congrArg (List.map BitVec.toNat) hcopied.requests
    rw [List.map_map, List.map_map] at hmap
    refine Eq.trans hmap (List.map_congr_left fun j hj => ?_)
    have hlt := List.mem_range.mp hj
    have hstart := h.start_lt
    simp only [Function.comp_apply]
    bv_omega
  · rw [h.readBytes_result]
    exact hcopied.data
  · exact hcopied.inside
  · refine (u32_storeResult k.machine.mem status k.pages_done k.error_count).1.trans ?_
    rw [hcopied.pages_done, BitVec.toNat_ofNat, Nat.mod_eq_of_lt (by omega)]
  · have hcount : k.pages.countP PageRead.failed ≤ k.pages.length := List.countP_le_length
    refine (u32_storeResult k.machine.mem status k.pages_done k.error_count).2.trans ?_
    rw [hcopied.error_count, BitVec.toNat_ofNat, Nat.mod_eq_of_lt (by omega)]

theorem Reassembled.step {o : Options} {start : Nat} {d : Dump b} {r : Batch}
    (h : Reassembled o start d) (hr : BatchDone b o start n r) (m : Machine b) :
    Reassembled o (start + n)
      ⟨m, d.file ++ r.data, d.total_errors + r.error_count, d.batches ++ [r]⟩ := by
  have hpages : Dump.pages (b := b)
      ⟨m, d.file ++ r.data, d.total_errors + r.error_count, d.batches ++ [r]⟩ =
        d.pages ++ r.pages := by
    rw [Dump.pages, List.flatMap_append, List.flatMap_singleton, Dump.pages]
  have hlen : r.pages.length = n := by
    have hmap := congrArg List.length hr.requests
    rwa [List.length_map, List.length_map, List.length_range] at hmap
  constructor
  · rw [hpages, List.map_append, h.requests, hr.requests, List.range_add]
  · rw [hpages, List.flatMap_append, ← h.file, ← hr.data]
  · intro q hq
    obtain hq | hq := List.mem_append.mp hq
    · exact h.inside q hq
    · obtain rfl := List.mem_singleton.mp hq
      rw [hr.asked]
      exact hr.inside
  · intro q hq
    obtain hq | hq := List.mem_append.mp hq
    · exact h.pages_done q hq
    · obtain rfl := List.mem_singleton.mp hq
      rw [hr.asked]
      exact ⟨hr.pages_done, hlen⟩
  · rw [hpages, List.countP_append, ← h.total_errors, ← hr.error_count]

theorem Usable.batch_pages_pos {o : Options} (h : Usable o) : 0 < o.batch_pages :=
  Nat.div_pos h.raw (Nat.mul_pos h.chunks (by decide))

theorem Usable.start_lt {o : Options} (h : Usable o) {k : Nat} (hk : k < o.num_batches) :
    k * o.batch_pages < o.total_pages := by
  have hpos := h.batch_pages_pos
  have hmul : (k + 1) * o.batch_pages ≤ o.total_pages + o.batch_pages - 1 :=
    (Nat.mul_le_mul_right _ hk).trans (Nat.div_mul_le_self _ _)
  rw [Nat.succ_mul] at hmul
  omega

theorem Usable.total_le {o : Options} (h : Usable o) :
    o.total_pages ≤ o.num_batches * o.batch_pages := by
  have hpos := h.batch_pages_pos
  have hlt : o.total_pages + o.batch_pages - 1 < o.batch_pages * (o.num_batches + 1) :=
    Nat.lt_mul_div_succ _ hpos
  rw [Nat.mul_succ, Nat.mul_comm] at hlt
  omega

theorem dumpBatches_reassembled {o : Options} (ho : Usable o) (htotal : o.total_pages ≤ 2 ^ 32)
    {timeout : Nat → Bool} (htime : ∀ k, timeout k = false) (m : Machine b) (k : Nat)
    (hk : k ≤ o.num_batches) :
    ∃ d, dumpBatches o timeout m k = .ok d ∧
      Reassembled o (min (k * o.batch_pages) o.total_pages) d := by
  induction k with
  | zero =>
    refine ⟨_, rfl, ?_⟩
    rw [Nat.zero_mul, Nat.zero_min]
    refine ⟨rfl, rfl, ?_, ?_, rfl⟩
    · exact fun r hr => absurd hr List.not_mem_nil
    · exact fun r hr => absurd hr List.not_mem_nil
  | succ k ih =>
    obtain ⟨d, hd, hdone⟩ := ih (Nat.le_of_lt hk)
    have hstart := ho.start_lt hk
    have hend := Nat.min_le_right o.batch_pages (o.total_pages - k * o.batch_pages)
    have hroom : Room o (k * o.batch_pages)
        (min o.batch_pages (o.total_pages - k * o.batch_pages)) :=
      ⟨ho, by omega, by omega,
        (Nat.mul_le_mul_right _ (Nat.min_le_left _ _)).trans (Nat.div_mul_le_self _ _)⟩
    obtain ⟨m', r, hrun, hbatch⟩ := runBatch_done (m := d.machine) hroom (htime k)
    have hnext : min ((k + 1) * o.batch_pages) o.total_pages =
        k * o.batch_pages + min o.batch_pages (o.total_pages - k * o.batch_pages) := by
      rw [Nat.succ_mul]
      omega
    rw [Nat.min_eq_left hstart.le] at hdone
    rw [dumpBatches, hd, hnext]
    refine ⟨⟨m', d.file ++ r.data, d.total_errors + r.error_count, d.batches ++ [r]⟩, ?_,
      hdone.step hbatch m'⟩
    simp only [bind, Except.bind, hrun]

/-- A chip with up to 2^32 pages is reassembled, with the pages that failed blank. -/
theorem dump_reassembled {o : Options} (ho : Usable o) (htotal : o.total_pages ≤ 2 ^ 32)
    {timeout : Nat → Bool} (htime : ∀ k, timeout k = false) (m : Machine b) :
    ∃ d, dump o timeout m = .ok d ∧ Reassembled o o.total_pages d := by
  obtain ⟨d, hd, h⟩ := dumpBatches_reassembled ho htotal htime m o.num_batches (Nat.le_refl _)
  rw [Nat.min_eq_right ho.total_le] at h
  exact ⟨d, hd, h⟩

/-- The fill starts at the word that holds the first byte of the page. -/
theorem readPage_fill_first {i : Word} {k : Copy b} (hf : (pageReads p i k).failed = true)
    (hraw : 0 < (p.raw_page_size >>> 2).toNat) :
    ∃ q ∈ (readPage p i k).pages,
      (wordOf (p.ddr_dest + i * p.raw_page_size), 4) ∈ q.writes := by
  obtain ⟨words, hwords⟩ := Nat.exists_eq_add_one_of_ne_zero (Nat.pos_iff_ne_zero.mp hraw)
  rw [readPage_of_failed hf]
  refine ⟨_, List.mem_append_right _ (List.mem_singleton_self _), List.mem_append_right _ ?_⟩
  rw [hwords, fillAddresses]
  exact List.mem_map_of_mem List.mem_cons_self

def badPage : Bootrom where
  State := Word × Nat
  page s := s.1
  pos s := s.2
  raw _ _ := 0
  hw_init s _ _ := s
  issue_probe_sequence _ _ n := (n, 0)
  read_chunk_to_buf s m dst n :=
    if s.1 = 0 then (false, s, m)
    else (true, (s.1, s.2 + n.toNat), storeBytes m dst (List.replicate n.toNat 0))
  issued _ _ _ := ⟨rfl, rfl⟩
  inside := by
    intro s m dst n
    have hlen : (List.replicate n.toNat (0 : Byte)).length = n.toNat := List.length_replicate
    split
    · exact Frame.refl
    · have h := frame_storeBytes (m := m) (a := dst) (hlen.trans_le (BitVec.isLt n).le)
      rwa [hlen] at h
  delivers := by
    intro s m dst n hok
    have hlen : (List.replicate n.toNat (0 : Byte)).length = n.toNat := List.length_replicate
    by_cases hpage : s.1 = 0
    · rw [if_pos hpage] at hok
      cases hok
    · rw [if_neg hpage]
      have h := readBytes_storeBytes m dst _ (hlen.trans_le (BitVec.isLt n).le)
      rw [hlen] at h
      exact ⟨by rw [h, List.map_const', List.length_range], rfl, rfl⟩

def smallPages (total_pages ddr_base : Nat) : Options :=
  ⟨total_pages, 1, ddr_base, ⟨0x1010000, 2, 0, 0, 0xA000A⟩, 0, 0⟩

/-- A full batch, and three pages behind it. -/
theorem dump_reassembled_smallPages :
    (smallPages 125117 DDR_BASE).num_batches = 2 ∧
      125117 - (smallPages 125117 DDR_BASE).batch_pages = 3 ∧
      ∃ d, dump (smallPages 125117 DDR_BASE) (fun _ => false) (b := badPage)
          ⟨(0, 0), fun _ => 0⟩ = .ok d ∧
        Reassembled (smallPages 125117 DDR_BASE) 125117 d :=
  ⟨by decide, by decide,
    dump_reassembled ⟨by decide, by decide, by decide, by decide, by decide⟩ (by decide)
      (fun _ => rfl) _⟩

/-- A page number past 2^32 cannot be asked for, and the fill needs an aligned buffer. -/
theorem dump_limits :
    (¬ ∃ d, dump (smallPages (2 ^ 32 + 1) DDR_BASE) (fun _ => false) (b := badPage)
        ⟨(0, 0), fun _ => 0⟩ = .ok d ∧
      Reassembled (smallPages (2 ^ 32 + 1) DDR_BASE) (2 ^ 32 + 1) d) ∧
    ¬ ∃ d, dump (smallPages 1 (DDR_BASE + 1)) (fun _ => false) (b := badPage)
        ⟨(0, 0), fun _ => 0⟩ = .ok d ∧
      Reassembled (smallPages 1 (DDR_BASE + 1)) 1 d := by
  constructor
  · intro ⟨d, _, h⟩
    have hmem : 2 ^ 32 ∈ d.pages.map fun p => p.page.toNat := by
      rw [h.requests]
      exact List.mem_range.mpr (Nat.lt_succ_self _)
    obtain ⟨p, -, hp⟩ := List.mem_map.mp hmem
    exact absurd p.page.isLt (by omega)
  · intro ⟨d, hd, h⟩
    obtain ⟨params, hpack, hsnap⟩ := @snapshot_packed (smallPages 1 (DDR_BASE + 1)) 0 1
      (fun _ => 0) (by decide) (by decide) (by decide) (by decide)
    have hnum : (smallPages 1 (DDR_BASE + 1)).num_batches = 1 := by decide
    have hstart : 0 * (smallPages 1 (DDR_BASE + 1)).batch_pages = 0 := Nat.zero_mul _
    have hthis : min (smallPages 1 (DDR_BASE + 1)).batch_pages
        ((smallPages 1 (DDR_BASE + 1)).total_pages - 0) = 1 := by decide
    rw [dump, hnum, dumpBatches, dumpBatches] at hd
    simp only [runBatch, hstart, hthis, hpack, bind, Except.bind, Bool.false_eq_true, if_false,
      stub_main, hsnap] at hd
    injection hd with hd
    subst hd
    let p : NandCopyParams :=
      ⟨0, 1, BitVec.ofNat 32 (DDR_BASE + 1), 1, ⟨0x1010000, 2, 0, 0, 0xA000A⟩, 0, 0⟩
    obtain ⟨q, hq, hw⟩ := readPage_fill_first (b := badPage) (p := p) (i := 0)
      (k := copyPages _ _ 0) (by rfl) (by decide)
    have hfirst : wordOf (p.ddr_dest + 0 * p.raw_page_size) = 0x30000000 := by decide
    rw [hfirst] at hw
    have hin := h.inside _ (List.mem_singleton_self _) q hq _ hw
    have hraw : 1 * (smallPages 1 (DDR_BASE + 1)).raw_page_size = 528 := rfl
    dsimp only at hin
    rw [hraw] at hin
    exact absurd hin (by rw [InWindow]; decide)

end AipcOs.NandCopy
