import AipcOs.StructBytes

/-! aipc_nand_extract: the partition table block of a raw NAND dump, the geometry its END entry
gives, and the partitions cut out of the normalized image. -/
namespace AipcOs.Ptb
open ByteMemory StructBytes

def PAGE_SIZE : Nat := 0x800
def CHUNK_SIZE : Nat := 0x200
def OOB_SIZE : Nat := 0x10
def RAW_CHUNK_SIZE : Nat := CHUNK_SIZE + OOB_SIZE
def CHUNKS_PER_PAGE : Nat := PAGE_SIZE / CHUNK_SIZE
def RAW_PAGE_SIZE : Nat := RAW_CHUNK_SIZE * CHUNKS_PER_PAGE
def PTB_PAYLOAD_SIZE : Nat := 0x7F4
def PTB_ENTRY_SIZE : Nat := 0x30

/-- NBT, IPL, BAK, UDR, NK, DSK, CFG and END, padded with zeros. -/
def PTB_ENTRY_TAGS : List (List Byte) :=
  [[0x4E, 0x42, 0x54, 0], [0x49, 0x50, 0x4C, 0], [0x42, 0x41, 0x4B, 0], [0x55, 0x44, 0x52, 0],
    [0x4E, 0x4B, 0, 0], [0x44, 0x53, 0x4B, 0], [0x43, 0x46, 0x47, 0], [0x45, 0x4E, 0x44, 0]]

def PTB_MAGIC : List Byte := [0x50, 0x54, 0x42, 0]
def PTB_VERSION : List Byte := [0x30, 0x31, 0, 0]

structure NANDGeometry where
  raw_size : Nat
  clean_size : Nat
  total_pages : Nat
  total_blocks : Nat
  block_size : Nat
  pages_per_block : Nat

structure PTBEntry where
  index : Nat
  raw_tag : List Byte
  filename : String
  unk0 : Nat
  flags : Nat
  start_block : Nat
  block_count : Nat
  load_addr : Nat
  deriving DecidableEq

/-- Decodes with errors="replace". -/
def decodeAscii (bs : List Byte) : String :=
  String.ofList (bs.map fun b => if b.toNat < 0x80 then Char.ofNat b.toNat else Char.ofNat 0xFFFD)

def decodeCString (raw : List Byte) : String := decodeAscii (raw.takeWhile (· ≠ 0))

def PTBEntry.tag (e : PTBEntry) : String :=
  decodeAscii ((e.raw_tag.reverse.dropWhile (· = 0)).reverse)

def PTBEntry.offset (e : PTBEntry) (g : NANDGeometry) : Nat := e.start_block * g.block_size

def PTBEntry.size (e : PTBEntry) (g : NANDGeometry) : Nat := e.block_count * g.block_size

structure PTBCandidate where
  page_index : Nat
  clean_offset : Nat
  raw_offset : Nat
  ptb_raw : List Byte
  save_sector : Nat
  save_count : Nat
  table_offset : Nat
  entries : List PTBEntry
  geometry : NANDGeometry

def normalizeInterleaved (page : List Byte) : List Byte :=
  (List.range CHUNKS_PER_PAGE).flatMap fun i => slice page (i * RAW_CHUNK_SIZE) CHUNK_SIZE

def parsePtbEntry (raw : List Byte) (index : Nat) : PTBEntry where
  index := index
  raw_tag := slice raw 4 4
  filename := decodeCString (slice raw 8 16)
  unk0 := u32 raw 0
  flags := u32 raw 0x1C
  start_block := u32 raw 0x20
  block_count := u32 raw 0x24
  load_addr := u32 raw 0x28

def PTBEntry.last (e : PTBEntry) : Nat := e.start_block + e.block_count

def isValidPtbEntries (entries : List PTBEntry) : Bool :=
  entries.length = PTB_ENTRY_TAGS.length &&
  (entries.zip PTB_ENTRY_TAGS).all (fun p => p.1.raw_tag = p.2 && p.1.block_count ≠ 0) &&
  entries.head?.map PTBEntry.start_block = some 0 &&
  (entries.zip entries.tail).all fun p => p.1.last ≤ p.2.start_block

def tagsMatch (ptbRaw : List Byte) (offset : Nat) : Bool :=
  PTB_ENTRY_TAGS.zipIdx.all fun p => slice ptbRaw (offset + p.2 * PTB_ENTRY_SIZE + 4) 4 = p.1

def entriesAt (ptbRaw : List Byte) (offset : Nat) : List PTBEntry :=
  (List.range PTB_ENTRY_TAGS.length).map fun i =>
    parsePtbEntry (slice ptbRaw (offset + i * PTB_ENTRY_SIZE) PTB_ENTRY_SIZE) i

def tableOffsets (ptbRaw : List Byte) : List Nat :=
  ((List.range (ptbRaw.length / 4 + 1)).map (4 * ·)).filter
    (· + PTB_ENTRY_TAGS.length * PTB_ENTRY_SIZE ≤ ptbRaw.length)

def tableAt (ptbRaw : List Byte) (offset : Nat) : Option (Nat × List PTBEntry) :=
  if tagsMatch ptbRaw offset && isValidPtbEntries (entriesAt ptbRaw offset) then
    some (offset, entriesAt ptbRaw offset)
  else none

def hexUpper (n : Nat) : String := "0x" ++ String.ofList ((Nat.toDigits 16 n).map Char.toUpper)

def parsePtbTable (ptbRaw : List Byte) : Except String (Nat × List PTBEntry) :=
  match (tableOffsets ptbRaw).filterMap (tableAt ptbRaw) with
  | [] => .error "PTB entry table not found"
  | [table] => .ok table
  | tables =>
    .error ("ambiguous PTB entry tables: " ++ ", ".intercalate (tables.map (hexUpper ·.1)))

def deriveGeometry (rawSize totalPages : Nat) (entries : List PTBEntry) :
    Except String NANDGeometry :=
  match entries.getLast? with
  | none => .error "list index out of range"
  | some endEntry =>
    let totalBlocks := endEntry.last
    let cleanSize := totalPages * PAGE_SIZE
    let blockSize := cleanSize / totalBlocks
    let pagesPerBlock := blockSize / PAGE_SIZE
    if totalBlocks = 0 then .error "PTB END entry gives zero total block count"
    else if cleanSize % totalBlocks ≠ 0 then
      .error "clean image size is not divisible by PTB block count"
    else if blockSize % PAGE_SIZE ≠ 0 then .error "derived block size is not page-aligned"
    else if pagesPerBlock = 0 ∨ pagesPerBlock * totalBlocks ≠ totalPages then
      .error "derived block geometry does not match raw page count"
    else
      match entries.find? fun e => totalBlocks < e.last with
      | some e => .error ("PTB entry " ++ e.tag ++ " exceeds derived NAND geometry")
      | none => .ok ⟨rawSize, cleanSize, totalPages, totalBlocks, blockSize, pagesPerBlock⟩

def parsePtbCandidate (pageIndex : Nat) (page : List Byte) (rawSize totalPages : Nat) :
    Except String PTBCandidate := do
  let ptbRaw := (normalizeInterleaved page).take PTB_PAYLOAD_SIZE
  if ptbRaw.take 4 ≠ PTB_MAGIC then .error "PTB magic not found"
  else if slice ptbRaw 4 4 ≠ PTB_VERSION then .error "unsupported PTB version"
  else
    let saveSector := u32 ptbRaw 8
    if saveSector ≠ pageIndex then .error "PTB save_sector does not match page index"
    else
      let (tableOffset, entries) ← parsePtbTable ptbRaw
      let geometry ← deriveGeometry rawSize totalPages entries
      return {
        page_index := pageIndex
        clean_offset := pageIndex * PAGE_SIZE
        raw_offset := pageIndex * RAW_PAGE_SIZE
        ptb_raw := ptbRaw
        save_sector := saveSector
        save_count := u32 ptbRaw 12
        table_offset := tableOffset
        entries
        geometry }

def pageAt (raw : List Byte) (i : Nat) : List Byte := slice raw (i * RAW_PAGE_SIZE) RAW_PAGE_SIZE

def shortRead (i : Nat) : String := "short read at raw page " ++ toString i

/-- The loop of scan_ptb. A page that starts with the magic and fails a check is passed over. -/
def scanPages (raw : List Byte) (rawSize totalPages : Nat) :
    List Nat → Except String (List PTBCandidate)
  | [] => .ok []
  | i :: rest =>
    let page := pageAt raw i
    if page.length ≠ RAW_PAGE_SIZE then .error (shortRead i)
    else do
      let others ← scanPages raw rawSize totalPages rest
      if !PTB_MAGIC.isPrefixOf (normalizeInterleaved page) then return others
      match parsePtbCandidate i page rawSize totalPages with
      | .ok candidate => return candidate :: others
      | .error _ => return others

def PTBCandidate.key (c : PTBCandidate) : Nat ×ₗ Nat := toLex (c.save_count, c.page_index)

def scanPtb (raw : List Byte) (rawSize totalPages : Nat) : Except String PTBCandidate := do
  let candidates ← scanPages raw rawSize totalPages (List.range totalPages)
  match candidates.argmax PTBCandidate.key with
  | none => .error "PTB not found"
  | some c => .ok c

/-- bchlib.BCH(4, 0x201B). `correct` flips the bits that the last `decode` located, in place. -/
structure BCH where
  encode : List Byte → List Byte
  decode : List Byte → List Byte → Int
  correct : List Byte → List Byte → List Byte
  correct_length : ∀ inp ecc, (correct inp ecc).length = inp.length

inductive ChunkStatus where
  | ok | corrected | raw_write | mirror_mismatch | ecc_uncorrectable
  deriving DecidableEq

/-- The data, its status and the number of flipped bits. -/
def eccCorrectChunk (bch : BCH) (data oob : List Byte) : List Byte × ChunkStatus × Int :=
  let storedEcc := slice oob 9 7
  let inp := data ++ oob.take 9
  if bch.encode inp = storedEcc then (data, .ok, 0)
  else if oob = List.replicate OOB_SIZE 0xFF then (data, .raw_write, 0)
  else
    let n := bch.decode inp storedEcc
    if 0 < n then ((bch.correct inp storedEcc).take CHUNK_SIZE, .corrected, n)
    else if n = 0 then (data, .ok, 0)
    else if slice oob 4 5 ≠ slice data 4 5 then (data, .mirror_mismatch, 0)
    else (data, .ecc_uncorrectable, 0)

structure ECCStats where
  ok : Nat
  corrected : Nat
  uncorrectable : Nat
  raw_write : Nat
  corrected_chunks : List (Nat × Nat × Int)
  uncorrectable_chunks : List (Nat × Nat × ChunkStatus)

def ECCStats.empty : ECCStats := ⟨0, 0, 0, 0, [], []⟩

def ECCStats.add (s : ECCStats) (page chunk : Nat) (status : ChunkStatus) (n : Int) : ECCStats :=
  match status with
  | .ok => { s with ok := s.ok + 1 }
  | .corrected =>
    { s with
      corrected := s.corrected + 1
      corrected_chunks := s.corrected_chunks ++ [(page, chunk, n)] }
  | .raw_write => { s with raw_write := s.raw_write + 1 }
  | status =>
    { s with
      uncorrectable := s.uncorrectable + 1
      uncorrectable_chunks := s.uncorrectable_chunks ++ [(page, chunk, status)] }

def normalizeChunk (bch : BCH) (page : List Byte) (pageIndex i : Nat) (s : ECCStats) :
    List Byte × ECCStats :=
  let raw := slice page (i * RAW_CHUNK_SIZE) RAW_CHUNK_SIZE
  if raw = List.replicate RAW_CHUNK_SIZE 0xFF then (raw.take CHUNK_SIZE, s)
  else
    let (data, status, n) := eccCorrectChunk bch (raw.take CHUNK_SIZE) (raw.drop CHUNK_SIZE)
    (data, s.add pageIndex i status n)

def normalizeInterleavedEcc (bch : BCH) (page : List Byte) (pageIndex : Nat) (s : ECCStats) :
    List Byte × ECCStats :=
  (List.range CHUNKS_PER_PAGE).foldl
    (fun acc i =>
      let (data, s) := normalizeChunk bch page pageIndex i acc.2
      (acc.1 ++ data, s))
    ([], s)

def normalizeNbtPage (bch : BCH) (page : List Byte) (pageIndex : Nat) (s : ECCStats) :
    List Byte × ECCStats :=
  if page.drop PAGE_SIZE = List.replicate (RAW_PAGE_SIZE - PAGE_SIZE) 0xFF then
    (page.take PAGE_SIZE, s)
  else normalizeInterleavedEcc bch page pageIndex s

def findEntry (entries : List PTBEntry) (tag : String) : Except String PTBEntry :=
  match entries.find? fun e => e.tag = tag with
  | some e => .ok e
  | none => .error ("PTB entry not found: " ++ tag)

def normalizePages (bch : BCH) (raw : List Byte) (nbtStart nbtEnd : Nat) :
    List Nat → ECCStats → Except String (List Byte × ECCStats)
  | [], s => .ok ([], s)
  | i :: rest, s =>
    let page := pageAt raw i
    if page.length ≠ RAW_PAGE_SIZE then .error (shortRead i)
    else do
      let (data, s) :=
        if nbtStart ≤ i ∧ i < nbtEnd then normalizeNbtPage bch page i s
        else normalizeInterleavedEcc bch page i s
      let (clean, s) ← normalizePages bch raw nbtStart nbtEnd rest s
      return (data ++ clean, s)

def normalizeRawNand (bch : BCH) (raw : List Byte) (c : PTBCandidate) :
    Except String (List Byte × ECCStats) := do
  let nbt ← findEntry c.entries "NBT"
  normalizePages bch raw (nbt.start_block * c.geometry.pages_per_block)
    (nbt.last * c.geometry.pages_per_block) (List.range c.geometry.total_pages) .empty

def copyFrom (clean : List Byte) (tag : String) (pos remaining : Nat) : Except String (List Byte) :=
  if remaining = 0 then .ok []
  else
    let chunk := slice clean pos (min (1024 * 1024) remaining)
    if chunk.length = 0 then .error ("short read while extracting " ++ tag)
    else do
      let rest ← copyFrom clean tag (pos + chunk.length) (remaining - chunk.length)
      return chunk ++ rest
  termination_by remaining
  decreasing_by
    rename_i hremaining hchunk
    exact Nat.sub_lt (Nat.pos_of_ne_zero hremaining) (Nat.pos_of_ne_zero hchunk)

def copyPartition (clean : List Byte) (e : PTBEntry) (g : NANDGeometry) :
    Except String (List Byte) :=
  copyFrom clean e.tag (e.offset g) (e.size g)

section Table

theorem isValidPtbEntries_iff (entries : List PTBEntry) : isValidPtbEntries entries = true ↔
    entries.length = PTB_ENTRY_TAGS.length ∧
    (∀ p ∈ entries.zip PTB_ENTRY_TAGS, p.1.raw_tag = p.2 ∧ p.1.block_count ≠ 0) ∧
    entries.head?.map PTBEntry.start_block = some 0 ∧
    ∀ p ∈ entries.zip entries.tail, p.1.last ≤ p.2.start_block := by
  simp only [isValidPtbEntries, Bool.and_eq_true, List.all_eq_true, decide_eq_true_eq, and_assoc]

/-- Neighbours in order make the whole table ascend. -/
theorem pairwise_of_neighbours {entries : List PTBEntry}
    (h : ∀ p ∈ entries.zip entries.tail, p.1.last ≤ p.2.start_block) :
    entries.Pairwise fun a b => a.last ≤ b.start_block := by
  have hchain : entries.IsChain fun a b => a.last ≤ b.start_block := by
    induction entries with
    | nil => exact .nil
    | cons a rest ih =>
      cases rest with
      | nil => exact .singleton a
      | cons b rest =>
        refine .cons_cons (h (a, b) (by simp)) (ih fun p hp => h p ?_)
        exact List.mem_cons_of_mem _ hp
  have htrans : Trans (fun a b : PTBEntry => a.last ≤ b.start_block)
      (fun a b : PTBEntry => a.last ≤ b.start_block)
      (fun a b : PTBEntry => a.last ≤ b.start_block) :=
    ⟨fun {a b c} hab hbc => by
      have hab' : a.last ≤ b.start_block := hab
      have hbc' : b.last ≤ c.start_block := hbc
      have hle : b.start_block ≤ b.last := Nat.le_add_right _ _
      exact hab'.trans (hle.trans hbc')⟩
  exact List.isChain_iff_pairwise.mp hchain

theorem parsePtbTable_ok {ptbRaw : List Byte} {offset : Nat} {entries : List PTBEntry}
    (h : parsePtbTable ptbRaw = .ok (offset, entries)) : isValidPtbEntries entries = true := by
  unfold parsePtbTable at h
  split at h
  · cases h
  · rename_i table htables
    cases h
    have hmem : (offset, entries) ∈ (tableOffsets ptbRaw).filterMap (tableAt ptbRaw) := by
      rw [htables]
      exact List.mem_singleton_self _
    obtain ⟨o, -, hat⟩ := List.mem_filterMap.mp hmem
    unfold tableAt at hat
    split at hat
    · rename_i hvalid
      cases hat
      exact (Bool.and_eq_true_iff.mp hvalid).2
    · cases hat
  · cases h

structure Geometry (rawSize totalPages : Nat) (entries : List PTBEntry) (g : NANDGeometry) :
    Prop where
  raw_size : g.raw_size = rawSize
  total_pages : g.total_pages = totalPages
  clean_size : g.clean_size = totalPages * PAGE_SIZE
  blocks_pages : g.total_blocks * g.pages_per_block = totalPages
  blocks_bytes : g.block_size * g.total_blocks = g.clean_size
  inside : ∀ e ∈ entries, e.last ≤ g.total_blocks

theorem deriveGeometry_ok {rawSize totalPages : Nat} {entries : List PTBEntry} {g : NANDGeometry}
    (h : deriveGeometry rawSize totalPages entries = .ok g) :
    Geometry rawSize totalPages entries g := by
  unfold deriveGeometry at h
  split at h
  · cases h
  · dsimp only at h
    split at h
    · cases h
    split at h
    · cases h
    split at h
    · cases h
    split at h
    · cases h
    rename_i hdiv _ hpages
    split at h
    · cases h
    · rename_i hfind
      cases h
      push Not at hpages hdiv
      refine ⟨rfl, rfl, rfl, ?_, ?_, ?_⟩
      · rw [Nat.mul_comm]
        exact hpages.2
      · exact Nat.div_mul_cancel (Nat.dvd_of_mod_eq_zero hdiv)
      · intro e he
        have hle := List.find?_eq_none.mp hfind e he
        simpa using hle

structure Parsed (pageIndex rawSize totalPages : Nat) (c : PTBCandidate) : Prop where
  page_index : c.page_index = pageIndex
  valid : isValidPtbEntries c.entries = true
  geometry : Geometry rawSize totalPages c.entries c.geometry

theorem parsePtbCandidate_ok {pageIndex : Nat} {page : List Byte} {rawSize totalPages : Nat}
    {c : PTBCandidate} (h : parsePtbCandidate pageIndex page rawSize totalPages = .ok c) :
    Parsed pageIndex rawSize totalPages c := by
  unfold parsePtbCandidate at h
  dsimp only at h
  split at h
  · cases h
  split at h
  · cases h
  split at h
  · cases h
  cases htable : parsePtbTable ((normalizeInterleaved page).take PTB_PAYLOAD_SIZE) with
  | error e =>
    rw [htable] at h
    cases h
  | ok table =>
    obtain ⟨offset, entries⟩ := table
    rw [htable] at h
    cases hgeo : deriveGeometry rawSize totalPages entries with
    | error e =>
      simp only [bind, Except.bind, hgeo] at h
      cases h
    | ok g =>
      simp only [bind, Except.bind, hgeo] at h
      cases h
      exact ⟨rfl, parsePtbTable_ok htable, deriveGeometry_ok hgeo⟩

/-- The partitions lie one behind the other, inside the image. -/
theorem Parsed.ranges {pageIndex rawSize totalPages : Nat} {c : PTBCandidate}
    (h : Parsed pageIndex rawSize totalPages c) :
    c.entries.Pairwise
      (fun a b => a.offset c.geometry + a.size c.geometry ≤ b.offset c.geometry) ∧
    ∀ e ∈ c.entries, e.offset c.geometry + e.size c.geometry ≤ c.geometry.clean_size := by
  obtain ⟨-, -, -, hneighbours⟩ := (isValidPtbEntries_iff _).1 h.valid
  have hend (e : PTBEntry) : e.offset c.geometry + e.size c.geometry =
      e.last * c.geometry.block_size := (Nat.add_mul _ _ _).symm
  constructor
  · refine (pairwise_of_neighbours hneighbours).imp fun {a b} hab => ?_
    rw [hend]
    exact Nat.mul_le_mul_right _ hab
  · intro e he
    rw [hend, ← h.geometry.blocks_bytes, Nat.mul_comm]
    exact Nat.mul_le_mul_left _ (h.geometry.inside e he)

end Table

section Scan
variable {raw : List Byte} {rawSize totalPages : Nat}

def Valid (raw : List Byte) (rawSize totalPages i : Nat) (c : PTBCandidate) : Prop :=
  i < totalPages ∧ parsePtbCandidate i (pageAt raw i) rawSize totalPages = .ok c

theorem magic_of_parse {i : Nat} {page : List Byte} {c : PTBCandidate}
    (h : parsePtbCandidate i page rawSize totalPages = .ok c) :
    PTB_MAGIC.isPrefixOf (normalizeInterleaved page) = true := by
  unfold parsePtbCandidate at h
  dsimp only at h
  split at h
  · cases h
  · rename_i hmagic
    rw [not_not, List.take_take, show min 4 PTB_PAYLOAD_SIZE = 4 from rfl] at hmagic
    rw [List.isPrefixOf_iff_prefix, ← hmagic]
    exact List.take_prefix 4 _

/-- The scan collects exactly the candidates of its pages. -/
theorem scanPages_mem {pages : List Nat} (hfull : ∀ i ∈ pages, (pageAt raw i).length = RAW_PAGE_SIZE) :
    ∃ candidates, scanPages raw rawSize totalPages pages = .ok candidates ∧
      ∀ c, c ∈ candidates ↔
        ∃ i ∈ pages, parsePtbCandidate i (pageAt raw i) rawSize totalPages = .ok c := by
  induction pages with
  | nil => exact ⟨[], rfl, by simp⟩
  | cons i rest ih =>
    obtain ⟨others, hothers, hmem⟩ := ih fun j hj => hfull j (List.mem_cons_of_mem i hj)
    have hlen := hfull i List.mem_cons_self
    simp only [scanPages, hlen, ne_eq, not_true_eq_false, if_false, hothers]
    cases hparse : parsePtbCandidate i (pageAt raw i) rawSize totalPages with
    | error e =>
      refine ⟨others, ?_, ?_⟩
      · cases PTB_MAGIC.isPrefixOf (normalizeInterleaved (pageAt raw i)) <;> rfl
      · intro c
        simp [hmem, hparse]
    | ok first =>
      refine ⟨first :: others, ?_, ?_⟩
      · rw [magic_of_parse hparse]
        rfl
      · intro c
        rw [List.mem_cons, hmem]
        simp [hparse, eq_comm]

theorem pageAt_length {i : Nat} (h : (i + 1) * RAW_PAGE_SIZE ≤ raw.length) :
    (pageAt raw i).length = RAW_PAGE_SIZE := by
  rw [Nat.succ_mul] at h
  exact slice_length h

theorem Valid.page_index {i : Nat} {c : PTBCandidate} (h : Valid raw rawSize totalPages i c) :
    c.page_index = i := (parsePtbCandidate_ok h.2).page_index

/-- The key tells the candidates of a dump apart. -/
theorem Valid.eq_of_key {i j : Nat} {c d : PTBCandidate} (hc : Valid raw rawSize totalPages i c)
    (hd : Valid raw rawSize totalPages j d) (h : c.key = d.key) : c = d := by
  have hpage : c.page_index = d.page_index := (Prod.mk.inj (toLex_inj.mp h)).2
  rw [hc.page_index, hd.page_index] at hpage
  subst hpage
  exact Except.ok.inj (hc.2.symm.trans hd.2)

/-- scan_ptb picks the candidate with the greatest key, and fails exactly without any. -/
theorem scanPtb_spec (hraw : totalPages * RAW_PAGE_SIZE ≤ raw.length) :
    (∀ c, scanPtb raw rawSize totalPages = .ok c ↔
      (∃ i, Valid raw rawSize totalPages i c) ∧
        ∀ j d, Valid raw rawSize totalPages j d → d.key ≤ c.key) ∧
    ((∃ e, scanPtb raw rawSize totalPages = .error e) ↔
      ¬ ∃ i c, Valid raw rawSize totalPages i c) := by
  have hfull (i : Nat) (hi : i ∈ List.range totalPages) : (pageAt raw i).length = RAW_PAGE_SIZE :=
    pageAt_length ((Nat.mul_le_mul_right _ (List.mem_range.mp hi)).trans hraw)
  obtain ⟨candidates, hscan, hpages⟩ := @scanPages_mem raw rawSize totalPages _ hfull
  have hmem (c : PTBCandidate) : c ∈ candidates ↔ ∃ i, Valid raw rawSize totalPages i c := by
    simp only [hpages, List.mem_range, Valid]
  have hresult : scanPtb raw rawSize totalPages =
      match candidates.argmax PTBCandidate.key with
      | none => .error "PTB not found"
      | some c => .ok c := by
    rw [scanPtb, hscan]
    rfl
  rw [hresult]
  cases hbest : candidates.argmax PTBCandidate.key with
  | none =>
    have hempty : candidates = [] := List.argmax_eq_none.mp hbest
    have hnone : ¬ ∃ i c, Valid raw rawSize totalPages i c := by
      intro hex
      obtain ⟨i, c, h⟩ := hex
      have hin : c ∈ candidates := (hmem c).2 ⟨i, h⟩
      rw [hempty] at hin
      exact List.not_mem_nil hin
    refine ⟨fun c => ⟨nofun, fun h => ?_⟩, ⟨fun _ => hnone, fun _ => ⟨_, rfl⟩⟩⟩
    obtain ⟨⟨i, hi⟩, -⟩ := h
    exact absurd ⟨i, c, hi⟩ hnone
  | some best =>
    obtain ⟨k, hk⟩ := (hmem best).1 (List.argmax_mem hbest)
    have hmax (j : Nat) (d : PTBCandidate) (hd : Valid raw rawSize totalPages j d) :
        d.key ≤ best.key := List.le_of_mem_argmax ((hmem d).2 ⟨j, hd⟩) hbest
    refine ⟨fun c => ⟨fun h => ?_, fun h => ?_⟩, ⟨fun ⟨e, he⟩ => ?_, fun h => ?_⟩⟩
    · cases h
      exact ⟨⟨k, hk⟩, hmax⟩
    · obtain ⟨⟨i, hi⟩, hle⟩ := h
      rw [hi.eq_of_key hk (le_antisymm (hmax i c hi) (hle k best hk))]
    · cases he
    · exact absurd ⟨k, best, hk⟩ h

end Scan

section Normalize
variable (bch : BCH)

theorem eccCorrectChunk_length {data : List Byte} (hd : data.length = CHUNK_SIZE)
    (oob : List Byte) : (eccCorrectChunk bch data oob).1.length = CHUNK_SIZE := by
  have hc (ecc : List Byte) :
      ((bch.correct (data ++ oob.take 9) ecc).take CHUNK_SIZE).length = CHUNK_SIZE := by
    rw [List.length_take, bch.correct_length, List.length_append, hd]
    exact Nat.min_eq_left (Nat.le_add_right _ _)
  unfold eccCorrectChunk
  dsimp only
  split_ifs
  all_goals first | exact hd | exact hc _

theorem normalizeChunk_length {page : List Byte} (hp : page.length = RAW_PAGE_SIZE)
    (pageIndex : Nat) {i : Nat} (hi : i < CHUNKS_PER_PAGE) (s : ECCStats) :
    (normalizeChunk bch page pageIndex i s).1.length = CHUNK_SIZE := by
  have hchunk : (slice page (i * RAW_CHUNK_SIZE) RAW_CHUNK_SIZE).length = RAW_CHUNK_SIZE := by
    apply slice_length
    rw [hp, ← Nat.succ_mul, RAW_PAGE_SIZE, Nat.mul_comm RAW_CHUNK_SIZE]
    exact Nat.mul_le_mul_right _ hi
  have htake : ((slice page (i * RAW_CHUNK_SIZE) RAW_CHUNK_SIZE).take CHUNK_SIZE).length =
      CHUNK_SIZE := by
    rw [List.length_take, hchunk]
    rfl
  unfold normalizeChunk
  dsimp only
  split
  · exact htake
  · exact eccCorrectChunk_length bch htake _

theorem normalizeInterleavedEcc_length {page : List Byte} (hp : page.length = RAW_PAGE_SIZE)
    (pageIndex : Nat) (s : ECCStats) :
    (normalizeInterleavedEcc bch page pageIndex s).1.length = PAGE_SIZE := by
  have hfold (n : Nat) (hn : n ≤ CHUNKS_PER_PAGE) :
      ((List.range n).foldl
        (fun (acc : List Byte × ECCStats) i =>
          (acc.1 ++ (normalizeChunk bch page pageIndex i acc.2).1,
            (normalizeChunk bch page pageIndex i acc.2).2)) ([], s)).1.length = n * CHUNK_SIZE := by
    induction n with
    | zero => rfl
    | succ n ih =>
      rw [List.range_succ, List.foldl_append, List.foldl_cons, List.foldl_nil, List.length_append,
        ih (Nat.le_of_succ_le hn), normalizeChunk_length bch hp pageIndex hn, Nat.succ_mul]
  exact hfold CHUNKS_PER_PAGE le_rfl

theorem normalizeNbtPage_length {page : List Byte} (hp : page.length = RAW_PAGE_SIZE)
    (pageIndex : Nat) (s : ECCStats) :
    (normalizeNbtPage bch page pageIndex s).1.length = PAGE_SIZE := by
  unfold normalizeNbtPage
  split
  · rw [List.length_take, hp]
    rfl
  · exact normalizeInterleavedEcc_length bch hp pageIndex s

/-- Every stored page becomes one page of the image. -/
theorem normalizePages_length {raw : List Byte} (nbtStart nbtEnd : Nat) {pages : List Nat}
    (hfull : ∀ i ∈ pages, (pageAt raw i).length = RAW_PAGE_SIZE) (s : ECCStats) :
    ∃ clean t, normalizePages bch raw nbtStart nbtEnd pages s = .ok (clean, t) ∧
      clean.length = pages.length * PAGE_SIZE := by
  induction pages generalizing s with
  | nil => exact ⟨[], s, rfl, rfl⟩
  | cons i rest ih =>
    have hlen := hfull i List.mem_cons_self
    have hpage : (if nbtStart ≤ i ∧ i < nbtEnd then normalizeNbtPage bch (pageAt raw i) i s
        else normalizeInterleavedEcc bch (pageAt raw i) i s).1.length = PAGE_SIZE := by
      split
      · exact normalizeNbtPage_length bch hlen i s
      · exact normalizeInterleavedEcc_length bch hlen i s
    simp only [normalizePages, hlen, ne_eq, not_true_eq_false, if_false]
    generalize (if nbtStart ≤ i ∧ i < nbtEnd then normalizeNbtPage bch (pageAt raw i) i s
      else normalizeInterleavedEcc bch (pageAt raw i) i s) = step at hpage ⊢
    obtain ⟨clean, t, hrest, hclean⟩ := ih (fun j hj => hfull j (List.mem_cons_of_mem i hj)) step.2
    refine ⟨step.1 ++ clean, t, ?_, ?_⟩
    · rw [hrest]
      rfl
    · rw [List.length_append, hpage, hclean, List.length_cons, Nat.succ_mul, Nat.add_comm]

end Normalize

/-- Inside the image the loop ends with exactly the slice. -/
theorem copyFrom_eq (clean : List Byte) (tag : String) (pos remaining : Nat)
    (h : pos + remaining ≤ clean.length) :
    copyFrom clean tag pos remaining = .ok (slice clean pos remaining) := by
  induction remaining using Nat.strongRecOn generalizing pos with
  | ind remaining ih =>
    rw [copyFrom]
    by_cases h0 : remaining = 0
    · rw [if_pos h0, h0]
      rfl
    · have hchunk : (slice clean pos (min (1024 * 1024) remaining)).length =
          min (1024 * 1024) remaining := slice_length (by omega)
      have hrest := ih (remaining - min (1024 * 1024) remaining) (by omega)
        (pos + min (1024 * 1024) remaining) (by omega)
      rw [if_neg h0]
      simp only [hchunk]
      rw [if_neg (by omega), hrest]
      simp only [bind, Except.bind, pure, Except.pure]
      rw [slice_append, Nat.add_sub_cancel' (Nat.min_le_right _ _)]

theorem copyPartition_eq {clean : List Byte} {e : PTBEntry} {g : NANDGeometry}
    (h : e.offset g + e.size g ≤ clean.length) :
    copyPartition clean e g = .ok (slice clean (e.offset g) (e.size g)) :=
  copyFrom_eq clean e.tag (e.offset g) (e.size g) h

/-- A valid table starts with the NBT entry. -/
theorem findEntry_nbt {entries : List PTBEntry} (h : isValidPtbEntries entries = true) :
    ∃ e, findEntry entries "NBT" = .ok e := by
  obtain ⟨hlen, htags, -, -⟩ := (isValidPtbEntries_iff entries).1 h
  cases entries with
  | nil => cases hlen
  | cons first rest =>
    have htag : first.raw_tag = [0x4E, 0x42, 0x54, 0] :=
      (htags (first, [0x4E, 0x42, 0x54, 0]) List.mem_cons_self).1
    have hname : first.tag = "NBT" := by
      rw [PTBEntry.tag, htag]
      decide
    exact ⟨first, by simp [findEntry, hname]⟩

structure Extracts (bch : BCH) (raw : List Byte) (c : PTBCandidate) : Prop where
  ascending : c.entries.Pairwise fun a b => a.last ≤ b.start_block
  inside : ∀ e ∈ c.entries, e.last ≤ c.geometry.total_blocks
  pages : c.geometry.total_blocks * c.geometry.pages_per_block = c.geometry.total_pages
  bytes : c.geometry.block_size * c.geometry.total_blocks = c.geometry.clean_size
  apart : c.entries.Pairwise fun a b =>
    a.offset c.geometry + a.size c.geometry ≤ b.offset c.geometry
  copied : ∃ clean stats, normalizeRawNand bch raw c = .ok (clean, stats) ∧
    clean.length = c.geometry.clean_size ∧
    ∀ e ∈ c.entries, e.offset c.geometry + e.size c.geometry ≤ clean.length ∧
      copyPartition clean e c.geometry =
        .ok (slice clean (e.offset c.geometry) (e.size c.geometry))

theorem Parsed.extracts (bch : BCH) {raw : List Byte} {pageIndex : Nat} {c : PTBCandidate}
    (h : Parsed pageIndex raw.length (raw.length / RAW_PAGE_SIZE) c) : Extracts bch raw c := by
  obtain ⟨hapart, hrange⟩ := h.ranges
  obtain ⟨-, -, -, hneighbours⟩ := (isValidPtbEntries_iff _).1 h.valid
  obtain ⟨nbt, hnbt⟩ := findEntry_nbt h.valid
  have hfull (i : Nat) (hi : i ∈ List.range c.geometry.total_pages) :
      (pageAt raw i).length = RAW_PAGE_SIZE := by
    rw [h.geometry.total_pages] at hi
    exact pageAt_length ((Nat.mul_le_mul_right _ (List.mem_range.mp hi)).trans
      (Nat.div_mul_le_self _ _))
  obtain ⟨clean, stats, hclean, hlen⟩ := normalizePages_length bch
    (nbt.start_block * c.geometry.pages_per_block) (nbt.last * c.geometry.pages_per_block)
    hfull .empty
  have hsize : clean.length = c.geometry.clean_size := by
    rw [hlen, List.length_range, h.geometry.total_pages, h.geometry.clean_size]
  refine ⟨pairwise_of_neighbours hneighbours, h.geometry.inside, ?_, h.geometry.blocks_bytes,
    hapart, clean, stats, ?_, hsize, ?_⟩
  · rw [h.geometry.total_pages]
    exact h.geometry.blocks_pages
  · rw [normalizeRawNand, hnbt]
    exact hclean
  · intro e he
    have hle := hrange e he
    rw [← hsize] at hle
    exact ⟨hle, copyPartition_eq hle⟩

/-- Candidates are compared by save count, then by page. -/
theorem partition_extraction_exact (bch : BCH) (raw : List Byte) :
    (∀ pageIndex page c,
      parsePtbCandidate pageIndex page raw.length (raw.length / RAW_PAGE_SIZE) = .ok c →
        Extracts bch raw c) ∧
    (∀ c, scanPtb raw raw.length (raw.length / RAW_PAGE_SIZE) = .ok c ↔
      (∃ i, Valid raw raw.length (raw.length / RAW_PAGE_SIZE) i c) ∧
        ∀ j d, Valid raw raw.length (raw.length / RAW_PAGE_SIZE) j d → d.key ≤ c.key) ∧
    ((∃ e, scanPtb raw raw.length (raw.length / RAW_PAGE_SIZE) = .error e) ↔
      ¬ ∃ i c, Valid raw raw.length (raw.length / RAW_PAGE_SIZE) i c) :=
  ⟨fun _ _ _ h => (parsePtbCandidate_ok h).extracts bch, scanPtb_spec (Nat.div_mul_le_self _ _)⟩

def oneBlock (tag : List Byte) (start : Byte) : List Byte :=
  List.replicate 4 0 ++ tag ++ List.replicate 24 0 ++ [start, 0, 0, 0, 1, 0, 0, 0] ++
    List.replicate 8 0

def tableHead : List Byte :=
  PTB_MAGIC ++ PTB_VERSION ++ [0, 0, 0, 0, 5, 0, 0, 0] ++
    (PTB_ENTRY_TAGS.zipIdx.flatMap fun p => oneBlock p.1 (BitVec.ofNat 8 p.2))

def tablePage : List Byte := tableHead ++ List.replicate (RAW_PAGE_SIZE - 400) 0xFF

def tablePayload : List Byte := tableHead ++ List.replicate (PTB_PAYLOAD_SIZE - 400) 0xFF

/-- A chunk of zeros whose last data bit is flipped, in an erased page. -/
def flippedPage : List Byte :=
  List.replicate 511 0 ++ 1 :: List.replicate OOB_SIZE 0 ++
    List.replicate (3 * RAW_CHUNK_SIZE) 0xFF

def tableDump : List Byte := tablePage ++ (List.replicate (6 * RAW_PAGE_SIZE) 0xFF ++ flippedPage)

theorem tableHead_length : tableHead.length = 400 := by decide +kernel

theorem tablePayload_beyond {i : Nat} (h : 400 ≤ i) : tablePayload[i]? ≠ some 0x4E := by
  have hlen := tableHead_length
  rw [tablePayload, List.getElem?_append_right (by omega), List.getElem?_replicate]
  split
  · decide
  · nofun

theorem tagsMatch_first {ptbRaw : List Byte} {offset : Nat} (h : tagsMatch ptbRaw offset = true) :
    ptbRaw[offset + 4]? = some 0x4E := by
  have hnbt : slice ptbRaw (offset + 4) 4 = [0x4E, 0x42, 0x54, 0] := by
    simpa using List.all_eq_true.mp h ([0x4E, 0x42, 0x54, 0], 0) List.mem_cons_self
  have hbyte := slice_getElem? ptbRaw (offset + 4) 4 0
  rw [hnbt] at hbyte
  exact hbyte.symm

/-- Only the first 99 places of a table can hold its first tag. -/
theorem tablePayload_table :
    parsePtbTable tablePayload = .ok (16, entriesAt tablePayload 16) := by
  have hoffsets : tableOffsets tablePayload = (List.range 414).map (4 * ·) := by decide +kernel
  have hnear : ((List.range 99).map (4 * ·)).filterMap (tableAt tablePayload) =
      [(16, entriesAt tablePayload 16)] := by decide +kernel
  have hfar : (((List.range 315).map (99 + ·)).map (4 * ·)).filterMap (tableAt tablePayload) =
      [] := by
    rw [List.filterMap_eq_nil_iff]
    intro offset hmem
    obtain ⟨i, hi, rfl⟩ := List.mem_map.mp hmem
    obtain ⟨j, -, rfl⟩ := List.mem_map.mp hi
    have hmatch : tagsMatch tablePayload (4 * (99 + j)) = false := by
      by_contra hne
      have hfirst := tagsMatch_first (Bool.not_eq_false _ ▸ hne)
      exact tablePayload_beyond (show 400 ≤ 4 * (99 + j) + 4 by omega) hfirst
    rw [tableAt, hmatch, Bool.false_and, if_neg Bool.false_ne_true]
  rw [parsePtbTable, hoffsets, show 414 = 99 + 315 from rfl, List.range_add, List.map_append,
    List.filterMap_append, hnear, hfar]
  rfl

theorem tablePage_parses : ∃ c, parsePtbCandidate 0 tablePage (8 * RAW_PAGE_SIZE) 8 = .ok c := by
  have hpayload : (normalizeInterleaved tablePage).take PTB_PAYLOAD_SIZE = tablePayload := by
    decide +kernel
  have hmagic : tablePayload.take 4 = PTB_MAGIC := by decide +kernel
  have hversion : slice tablePayload 4 4 = PTB_VERSION := by decide +kernel
  have hsector : u32 tablePayload 8 = 0 := by decide +kernel
  have hgeometry : (deriveGeometry (8 * RAW_PAGE_SIZE) 8 (entriesAt tablePayload 16)).toOption.isSome
      = true := by decide +kernel
  rw [parsePtbCandidate, hpayload]
  simp only [hmagic, hversion, hsector, tablePayload_table, ne_eq, not_true_eq_false, if_false]
  cases h : deriveGeometry (8 * RAW_PAGE_SIZE) 8 (entriesAt tablePayload 16) with
  | error e =>
    rw [h] at hgeometry
    cases hgeometry
  | ok g =>
    simp only [bind, Except.bind, h]
    exact ⟨_, rfl⟩

theorem tablePage_length : tablePage.length = RAW_PAGE_SIZE := by
  rw [tablePage, List.length_append, tableHead_length, List.length_replicate]
  decide

theorem flippedPage_length : flippedPage.length = RAW_PAGE_SIZE := by
  rw [flippedPage, List.length_append, List.length_append, List.length_cons,
    List.length_replicate, List.length_replicate, List.length_replicate]
  decide

theorem tableDump_length : tableDump.length = 8 * RAW_PAGE_SIZE := by
  rw [tableDump, List.length_append, List.length_append, tablePage_length, flippedPage_length,
    List.length_replicate]
  decide

theorem tableDump_flipped : pageAt tableDump 7 = flippedPage := by
  have hbefore : (tablePage ++ List.replicate (6 * RAW_PAGE_SIZE) (0xFF : Byte)).length =
      7 * RAW_PAGE_SIZE := by
    rw [List.length_append, tablePage_length, List.length_replicate]
    decide
  rw [pageAt, slice, tableDump, ← List.append_assoc, List.drop_left' hbefore,
    List.take_of_length_le flippedPage_length.le]

/-- The generator polynomial of BCH(4, 0x201B), of degree 52. -/
def GENERATOR : Nat := 0x14523043AB86AB

def remainder (r : Nat) : List Bool → Nat
  | [] => r
  | b :: bs =>
    let r := 2 * r + b.toNat
    remainder (if r.testBit 52 then r ^^^ GENERATOR else r) bs

def bitsOf (inp : List Byte) : List Bool :=
  inp.flatMap fun b => (List.range 8).map fun i => b.getLsbD (7 - i)

def bchEncode (inp : List Byte) : List Byte :=
  let ecc := remainder 0 (bitsOf inp ++ List.replicate 52 false) <<< 4
  (List.range 7).map fun i => BitVec.ofNat 8 (ecc >>> (8 * (6 - i)))

def flipBit (inp : List Byte) (k : Nat) : List Byte := inp.modify (k / 8) (· ^^^ 0x80 >>> (k % 8))

def locate (inp ecc : List Byte) : Option Nat :=
  (List.range (8 * CHUNK_SIZE)).reverse.find? fun k => bchEncode (flipBit inp k) = ecc

/-- The code, with a decoder that finds one flipped bit of the data. -/
def oneBitCode : BCH where
  encode := bchEncode
  decode inp ecc :=
    if bchEncode inp = ecc then 0 else if (locate inp ecc).isSome then 1 else -1
  correct inp ecc := ((locate inp ecc).map (flipBit inp)).getD inp
  correct_length inp ecc := by
    cases locate inp ecc with
    | none => rfl
    | some k => exact List.length_modify ..

theorem bchEncode_zeros (n : Nat) (inp : List Byte) :
    bchEncode (List.replicate n 0 ++ inp) = bchEncode inp := by
  have hskip (bs : List Bool) : remainder 0 (bitsOf (List.replicate n 0) ++ bs) = remainder 0 bs := by
    induction n with
    | zero => rfl
    | succ n ih => exact ih
  have hbits : bitsOf (List.replicate n 0 ++ inp) = bitsOf (List.replicate n 0) ++ bitsOf inp :=
    List.flatMap_append
  rw [bchEncode, bchEncode, hbits, List.append_assoc, hskip]

def flippedChunk : List Byte := List.replicate 511 0 ++ 1 :: List.replicate 9 0

theorem flippedChunk_located : locate flippedChunk (List.replicate 7 0) = some 4095 := by
  have hback : flipBit flippedChunk 4095 = List.replicate 521 0 ++ [] := by decide +kernel
  have hzero : bchEncode (flipBit flippedChunk 4095) = List.replicate 7 0 := by
    rw [hback, bchEncode_zeros]
    decide +kernel
  rw [locate, show 8 * CHUNK_SIZE = 4095 + 1 from rfl, List.range_succ, List.reverse_append,
    List.reverse_singleton, List.singleton_append, List.find?_cons_of_pos (by simpa using hzero)]

theorem flippedChunk_corrected :
    eccCorrectChunk oneBitCode (List.replicate 511 0 ++ [1]) (List.replicate OOB_SIZE 0) =
      (List.replicate CHUNK_SIZE 0, .corrected, 1) := by
  have hinp : List.replicate 511 (0 : Byte) ++ [1] ++ (List.replicate OOB_SIZE 0).take 9 =
      flippedChunk := by decide +kernel
  have hecc : slice (List.replicate OOB_SIZE (0 : Byte)) 9 7 = List.replicate 7 0 := by
    decide +kernel
  have hdiffers : bchEncode flippedChunk ≠ List.replicate 7 0 := by
    rw [flippedChunk, bchEncode_zeros]
    decide +kernel
  have hback : (flipBit flippedChunk 4095).take CHUNK_SIZE = List.replicate CHUNK_SIZE 0 := by
    decide +kernel
  have hdecode : oneBitCode.decode flippedChunk (List.replicate 7 0) = 1 := by
    simp only [oneBitCode]
    rw [if_neg hdiffers, flippedChunk_located]
    rfl
  have hcorrect : (oneBitCode.correct flippedChunk (List.replicate 7 0)).take CHUNK_SIZE =
      List.replicate CHUNK_SIZE 0 := by
    simp only [oneBitCode, flippedChunk_located, Option.map_some, Option.getD_some, hback]
  have herased : List.replicate OOB_SIZE (0 : Byte) ≠ List.replicate OOB_SIZE 0xFF := by decide
  rw [eccCorrectChunk]
  simp only [hinp, hecc]
  rw [if_neg (show oneBitCode.encode flippedChunk ≠ _ from hdiffers), if_neg herased, hdecode,
    if_pos (by decide), hcorrect]

theorem normalizeChunk_written {bch : BCH} {page data oob out : List Byte} (pageIndex i : Nat)
    (s : ECCStats) {status : ChunkStatus} {n : Int}
    (hraw : slice page (i * RAW_CHUNK_SIZE) RAW_CHUNK_SIZE = data ++ oob)
    (hdata : data.length = CHUNK_SIZE) (hwritten : data ++ oob ≠ List.replicate RAW_CHUNK_SIZE 0xFF)
    (hecc : eccCorrectChunk bch data oob = (out, status, n)) :
    normalizeChunk bch page pageIndex i s = (out, s.add pageIndex i status n) := by
  rw [normalizeChunk]
  simp only [hraw]
  rw [if_neg hwritten, List.take_left' hdata, List.drop_left' hdata, hecc]

theorem flippedPage_chunk : slice flippedPage (0 * RAW_CHUNK_SIZE) RAW_CHUNK_SIZE =
    (List.replicate 511 0 ++ [1]) ++ List.replicate OOB_SIZE 0 := by
  have hlen : ((List.replicate 511 (0 : Byte) ++ [1]) ++ List.replicate OOB_SIZE 0).length =
      RAW_CHUNK_SIZE := by
    rw [List.length_append, List.length_append, List.length_replicate, List.length_replicate]
    rfl
  have hpage : flippedPage = ((List.replicate 511 (0 : Byte) ++ [1]) ++ List.replicate OOB_SIZE 0) ++
      List.replicate (3 * RAW_CHUNK_SIZE) 0xFF := by
    rw [flippedPage, List.append_assoc _ [1], List.singleton_append]
  rw [Nat.zero_mul, slice, List.drop_zero, hpage, List.take_left' hlen]

theorem flippedPage_corrected : normalizeChunk oneBitCode flippedPage 7 0 .empty =
    (List.replicate CHUNK_SIZE 0, ⟨0, 1, 0, 0, [(7, 0, 1)], []⟩) := by
  have hdata : (List.replicate 511 (0 : Byte) ++ [1]).length = CHUNK_SIZE := by
    rw [List.length_append, List.length_replicate]
    rfl
  have hwritten : (List.replicate 511 (0 : Byte) ++ [1]) ++ List.replicate OOB_SIZE 0 ≠
      List.replicate RAW_CHUNK_SIZE 0xFF := by
    intro h
    have hmem : (1 : Byte) ∈ List.replicate RAW_CHUNK_SIZE (0xFF : Byte) := by
      rw [← h]
      exact List.mem_append_left _ (List.mem_append_right _ List.mem_cons_self)
    exact absurd (List.eq_of_mem_replicate hmem) (by decide)
  exact normalizeChunk_written _ _ _ flippedPage_chunk hdata hwritten flippedChunk_corrected

/-- The flipped bit is put right. -/
theorem partition_extraction_exact_eight :
    (∃ c, Extracts oneBitCode tableDump c) ∧
      normalizeChunk oneBitCode (pageAt tableDump 7) 7 0 .empty =
        (List.replicate CHUNK_SIZE 0, ⟨0, 1, 0, 0, [(7, 0, 1)], []⟩) := by
  obtain ⟨c, h⟩ := tablePage_parses
  have hparsed : parsePtbCandidate 0 tablePage tableDump.length
      (tableDump.length / RAW_PAGE_SIZE) = .ok c := by
    rw [tableDump_length]
    exact h
  rw [tableDump_flipped]
  exact ⟨⟨c, (partition_extraction_exact _ tableDump).1 0 tablePage c hparsed⟩,
    flippedPage_corrected⟩

end AipcOs.Ptb
