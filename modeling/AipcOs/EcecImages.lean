import AipcOs.Ecec
import AipcOs.StructBytes

/-! The two directions of the ECEC address mapping, and the images that find_ecec_images cuts a
blob into. -/
namespace AipcOs.Ecec
open ByteMemory StructBytes

def rawToLogical (r n m : Nat) : Nat :=
  let fullPages := r / PAGE_SIZE
  let trailing := r % PAGE_SIZE
  let inGroup := fullPages % (n + 1)
  let pages := fullPages / (n + 1) * n + ((List.range inGroup).filter (· ≠ m)).length
  if trailing ≠ 0 ∧ inGroup ≠ m then pages * PAGE_SIZE + trailing else pages * PAGE_SIZE

def ececRawToLogicalSize (rawSize n m : Int) : Except String Nat :=
  if rawSize < 0 then .error "negative ECEC raw size"
  else if n ≤ 0 then .error "invalid ECEC raw group size"
  else if ¬ (0 ≤ m ∧ m ≤ n) then .error "invalid ECEC metadata page index"
  else .ok (rawToLogical rawSize.toNat n.toNat m.toNat)

/-- `raw_pages_per_group` is at most MAX_ECEC_LOGICAL_PAGES_PER_RAW_GROUP + 1. -/
structure ECECPageLayout where
  raw_pages_per_group : Nat
  metadata_page_mod : Nat
  group_ge : 2 ≤ raw_pages_per_group

def MAX_ECEC_LOGICAL_PAGES_PER_RAW_GROUP : Nat := 512

def isEcecMetadataPage (page : List Byte) : Bool :=
  page.length = PAGE_SIZE ∧ u32 page 4 = 0xFFFBFFFD ∧ u32 page 8 = 0xFFFFFFFF ∧
    u32 page 12 = 0xFFFFFFFF ∧ PAGE_SIZE / 2 < page.count 0xFF

def metadataPages (raw : List Byte) : List Nat :=
  (List.range (raw.length / PAGE_SIZE)).filter fun i =>
    isEcecMetadataPage (slice raw (i * PAGE_SIZE) PAGE_SIZE)

def metadataPeriod (pages : List Nat) : Nat :=
  (pages.zip pages.tail).foldl (fun period p => period.gcd (p.2 - p.1)) 0

def inferEcecPageLayout (raw : List Byte) : Except String ECECPageLayout :=
  let pages := metadataPages raw
  if pages.length < 2 then .error "unable to locate ECEC metadata pages"
  else
    let period := metadataPeriod pages
    if h : 2 ≤ period ∧ period ≤ MAX_ECEC_LOGICAL_PAGES_PER_RAW_GROUP + 1 then
      match (pages.map (· % period)).dedup with
      | [mod] => .ok ⟨period, mod, h.1⟩
      | _ => .error "inconsistent ECEC metadata page positions"
    else .error "invalid ECEC metadata page period"

structure ECECHeader where
  offset : Nat
  field_44 : Nat
  field_48 : Nat

def ECECHeader.load_base (h : ECECHeader) : Nat := h.field_44 - h.field_48

def headerAt (raw : List Byte) (offset : Nat) : Option ECECHeader :=
  if slice raw (offset + 0x40) 4 ≠ [0x45, 0x43, 0x45, 0x43] then none
  else
    let header : ECECHeader := ⟨offset, u32 raw (offset + 0x44), u32 raw (offset + 0x48)⟩
    if header.field_44 ≤ header.field_48 then none else some header

/-- The page offsets below `len(raw) - 0x4C`. -/
def headerOffsets (raw : List Byte) : List Nat :=
  ((List.range (raw.length / PAGE_SIZE + 1)).map (· * PAGE_SIZE)).filter (· + 0x4C < raw.length)

def scanEcecHeaders (raw : List Byte) : List ECECHeader :=
  (headerOffsets raw).filterMap (headerAt raw)

def CHAIN_INFO_NAME : List Byte :=
  [0x63, 0x68, 0x61, 0x69, 0x6E, 0x20, 0x69, 0x6E, 0x66, 0x6F, 0x72, 0x6D, 0x61, 0x74, 0x69, 0x6F,
    0x6E, 0]

def chainRecord (blob : List Byte) (bases : List Nat) (off : Nat) : Option (Nat × Nat) :=
  let loadBase := u32 blob off
  let logicalSize := u32 blob (off + 4)
  let order := u32 blob (off + 8)
  let reserved := u32 blob (off + 12)
  if loadBase ∉ bases then none
  else if logicalSize = 0 ∨ logicalSize % PAGE_SIZE ≠ 0 then none
  else if reserved ≠ 0 then none
  else if order >>> 16 ≠ 1 then none
  else some (loadBase, logicalSize)

/-- The records in file order; a later one for the same base replaces an earlier one. -/
def scanChainSpans (raw : List Byte) : List ECECHeader → List (Nat × Nat)
  | first :: second :: rest =>
    let blob := raw.take second.offset
    match find blob CHAIN_INFO_NAME with
    | none => []
    | some chain =>
      let start := (chain - 0x200) / 4 * 4
      let stop := min blob.length (chain + 0x800)
      let bases := (first :: second :: rest).map ECECHeader.load_base
      ((List.range ((stop + 4 - start - 0x10) / 4)).map (start + 4 * ·)).filterMap
        (chainRecord blob bases)
  | _ => []

def spanOf (spans : List (Nat × Nat)) (base : Nat) : Option Nat := spans.reverse.lookup base

structure FoundImage extends ECECImage where
  index : Nat
  offset : Nat
  header_field_44 : Nat
  header_field_48 : Nat

def metadataPageIndex (layout : ECECPageLayout) (offset : Nat) : Nat :=
  (((layout.metadata_page_mod : Int) - (offset / PAGE_SIZE : Nat)) %
    (layout.raw_pages_per_group : Int)).toNat

theorem metadataPageIndex_lt (layout : ECECPageLayout) (offset : Nat) :
    metadataPageIndex layout offset < layout.raw_pages_per_group := by
  have hge := layout.group_ge
  have hlt := Int.emod_lt_of_pos
    ((layout.metadata_page_mod : Int) - (offset / PAGE_SIZE : Nat))
    (show (0 : Int) < layout.raw_pages_per_group by omega)
  have hnonneg := Int.emod_nonneg
    ((layout.metadata_page_mod : Int) - (offset / PAGE_SIZE : Nat))
    (show (layout.raw_pages_per_group : Int) ≠ 0 by omega)
  rw [metadataPageIndex]
  omega

/-- The image of one header, `next` being the offset of the header behind it or the end. -/
def imageAt (raw : List Byte) (layout : ECECPageLayout) (spans : List (Nat × Nat)) (index : Nat)
    (header : ECECHeader) (next : Nat) : Except String FoundImage := do
  let n := layout.raw_pages_per_group - 1
  let m := metadataPageIndex layout header.offset
  let fallback ← ececRawToLogicalSize ((next : Int) - header.offset) n m
  let logicalSize := (spanOf spans header.load_base).getD fallback
  let spanSize ← ececLogicalToRawOffset logicalSize n m
  return {
    load_base := header.load_base
    logical_size := logicalSize
    span_size := min spanSize (raw.length - header.offset)
    logical_pages_per_raw_group := n
    metadata_page_index := m
    group_pos := Nat.le_sub_of_add_le layout.group_ge
    index_le := Nat.le_sub_one_of_lt (metadataPageIndex_lt layout header.offset)
    index
    offset := header.offset
    header_field_44 := header.field_44
    header_field_48 := header.field_48 }

def nextOffset (raw : List Byte) : List ECECHeader → Nat
  | [] => raw.length
  | next :: _ => next.offset

def imagesFrom (raw : List Byte) (layout : ECECPageLayout) (spans : List (Nat × Nat)) :
    Nat → List ECECHeader → Except String (List FoundImage)
  | _, [] => .ok []
  | index, header :: rest => do
    let image ← imageAt raw layout spans index header (nextOffset raw rest)
    let images ← imagesFrom raw layout spans (index + 1) rest
    return image :: images

def findEcecImages (raw : List Byte) : Except String (List FoundImage) := do
  let headers := scanEcecHeaders raw
  let spans := scanChainSpans raw headers
  let layout ← inferEcecPageLayout raw
  imagesFrom raw layout spans 0 headers

section Mapping
variable {n m : Nat}

theorem page_div (q t : Nat) (ht : t < PAGE_SIZE) : (q * PAGE_SIZE + t) / PAGE_SIZE = q := by
  rw [Nat.add_comm, Nat.add_mul_div_right _ _ (by decide), Nat.div_eq_of_lt ht, Nat.zero_add]

theorem page_mod (q t : Nat) (ht : t < PAGE_SIZE) : (q * PAGE_SIZE + t) % PAGE_SIZE = t := by
  rw [Nat.add_comm, Nat.add_mul_mod_self_right, Nat.mod_eq_of_lt ht]

/-- Pages of a group other than the metadata page, below page `k`. -/
theorem count_pages (k m : Nat) :
    ((List.range k).filter (· ≠ m)).length = if m < k then k - 1 else k := by
  induction k with
  | zero => rfl
  | succ k ih =>
    rw [List.range_succ, List.filter_append, List.length_append, ih]
    by_cases hk : k = m
    · simp [hk]
    · by_cases hm : m < k
      · simp [hk, hm, show m < k + 1 by omega]
        omega
      · simp [hk, hm, show ¬ m < k + 1 by omega]

/-- Where page `j` of a logical group and page `k` of a stored group go. -/
theorem rawOffset_group {g j t : Nat} (hj : j < n) (ht : t < PAGE_SIZE) :
    rawOffset ((g * n + j) * PAGE_SIZE + t) n m =
      (g * (n + 1) + if m ≤ j then j + 1 else j) * PAGE_SIZE + t := by
  have hn : 0 < n := by omega
  simp only [rawOffset, page_div _ _ ht, page_mod _ _ ht]
  rw [Nat.add_comm (g * n) j, Nat.add_mul_div_right _ _ hn, Nat.add_mul_mod_self_right,
    Nat.div_eq_of_lt hj, Nat.mod_eq_of_lt hj, Nat.zero_add]

theorem rawToLogical_group {g k t : Nat} (hk : k < n + 1) (ht : t < PAGE_SIZE) :
    rawToLogical ((g * (n + 1) + k) * PAGE_SIZE + t) n m =
      (g * n + if m < k then k - 1 else k) * PAGE_SIZE + if k = m then 0 else t := by
  simp only [rawToLogical, page_div _ _ ht, page_mod _ _ ht]
  rw [Nat.add_comm (g * (n + 1)) k, Nat.add_mul_div_right _ _ (Nat.succ_pos n),
    Nat.add_mul_mod_self_right, Nat.div_eq_of_lt hk, Nat.mod_eq_of_lt hk, Nat.zero_add, count_pages]
  by_cases hkm : k = m
  · simp [hkm]
  · by_cases h0 : t = 0
    · simp [h0]
    · simp [hkm, h0]

theorem group_split (n x : Nat) :
    ∃ g k t, k < n + 1 ∧ t < PAGE_SIZE ∧ x = (g * (n + 1) + k) * PAGE_SIZE + t := by
  refine ⟨x / PAGE_SIZE / (n + 1), x / PAGE_SIZE % (n + 1), x % PAGE_SIZE,
    Nat.mod_lt _ (Nat.succ_pos n), Nat.mod_lt _ (by decide), ?_⟩
  rw [Nat.mul_comm _ (n + 1), Nat.div_add_mod, Nat.mul_comm, Nat.div_add_mod]

/-- Counting the logical bytes in front of a mapped byte gives the byte. -/
theorem rawToLogical_rawOffset (hn : 1 ≤ n) (l : Nat) :
    rawToLogical (rawOffset l n m) n m = l := by
  obtain ⟨n, rfl⟩ : ∃ n', n = n' + 1 := ⟨n - 1, by omega⟩
  obtain ⟨g, j, t, hj, ht, rfl⟩ := group_split n l
  rw [rawOffset_group hj ht]
  by_cases hm : m ≤ j
  · rw [if_pos hm, rawToLogical_group (by omega) ht, if_pos (by omega), if_neg (by omega),
      Nat.add_sub_cancel]
  · rw [if_neg hm, rawToLogical_group (by omega) ht, if_neg (by omega), if_neg (by omega)]

/-- Off the metadata pages the two directions are inverse. -/
theorem rawOffset_rawToLogical (hm : m ≤ n) {r : Nat}
    (hr : r / PAGE_SIZE % (n + 1) ≠ m) : rawOffset (rawToLogical r n m) n m = r := by
  obtain ⟨g, k, t, hk, ht, rfl⟩ := group_split n r
  have hkm : k ≠ m := by
    rwa [page_div _ _ ht, Nat.add_comm, Nat.add_mul_mod_self_right, Nat.mod_eq_of_lt hk] at hr
  rw [rawToLogical_group hk ht, if_neg hkm]
  by_cases hlt : m < k
  · rw [if_pos hlt, rawOffset_group (by omega) ht, if_pos (by omega), Nat.sub_add_cancel (by omega)]
  · rw [if_neg hlt, rawOffset_group (by omega) ht, if_neg (by omega)]

theorem rawToLogical_boundary {g k : Nat} (hm : m ≤ n) (hk : k < n + 1) :
    rawToLogical ((g * (n + 1) + (k + 1)) * PAGE_SIZE) n m =
      (g * n + if m ≤ k then k else k + 1) * PAGE_SIZE := by
  have hzero : 0 < PAGE_SIZE := by decide
  by_cases hlast : k = n
  · have hnext : g * (n + 1) + (k + 1) = (g + 1) * (n + 1) + 0 := by
      rw [hlast, Nat.succ_mul]
      omega
    have h := rawToLogical_group (g := g + 1) (m := m) (Nat.succ_pos n) hzero
    rw [Nat.add_zero] at h
    rw [hnext, h, hlast, if_pos hm, Nat.succ_mul g]
    simp
  · have h := rawToLogical_group (g := g) (m := m) (show k + 1 < n + 1 by omega) hzero
    rw [Nat.add_zero] at h
    rw [h]
    simp only [Nat.lt_succ_iff, Nat.add_sub_cancel, ite_self, Nat.add_zero]

/-- One more stored byte is one more logical byte, unless it is metadata. -/
theorem rawToLogical_succ (hm : m ≤ n) (r : Nat) :
    rawToLogical (r + 1) n m =
      rawToLogical r n m + if r / PAGE_SIZE % (n + 1) = m then 0 else 1 := by
  obtain ⟨g, k, t, hk, ht, rfl⟩ := group_split n r
  have hpage : ((g * (n + 1) + k) * PAGE_SIZE + t) / PAGE_SIZE % (n + 1) = k := by
    rw [page_div _ _ ht, Nat.add_comm, Nat.add_mul_mod_self_right, Nat.mod_eq_of_lt hk]
  rw [hpage, rawToLogical_group hk ht]
  by_cases hlast : t + 1 < PAGE_SIZE
  · rw [Nat.add_assoc, rawToLogical_group hk hlast]
    by_cases hkm : k = m
    · rw [if_pos hkm, if_pos hkm, if_pos hkm]
    · rw [if_neg hkm, if_neg hkm, if_neg hkm, Nat.add_assoc]
  · have hsize : PAGE_SIZE = 2048 := rfl
    have hstep : (g * (n + 1) + k) * PAGE_SIZE + t + 1 =
        (g * (n + 1) + (k + 1)) * PAGE_SIZE := by
      rw [← Nat.add_assoc (g * (n + 1)), Nat.succ_mul]
      omega
    rw [hstep, rawToLogical_boundary hm hk]
    generalize g * n = a
    rw [hsize] at ht hlast ⊢
    split_ifs <;> omega

theorem rawToLogical_mono (hm : m ≤ n) : Monotone fun r => rawToLogical r n m :=
  monotone_nat_of_le_succ fun r => by
    rw [rawToLogical_succ hm]
    omega

theorem rawOffset_off_metadata (hn : 1 ≤ n) (l : Nat) :
    rawOffset l n m / PAGE_SIZE % (n + 1) ≠ m := by
  obtain ⟨n, rfl⟩ : ∃ n', n = n' + 1 := ⟨n - 1, by omega⟩
  obtain ⟨g, j, t, hj, ht, rfl⟩ := group_split n l
  rw [rawOffset_group hj ht, page_div _ _ ht, Nat.add_comm, Nat.add_mul_mod_self_right,
    Nat.mod_eq_of_lt (by split <;> omega)]
  split <;> omega

/-- The mapped bytes in front of `r` are the first `rawToLogical r` ones. -/
theorem rawOffset_lt_iff (hn : 1 ≤ n) (hm : m ≤ n) (l r : Nat) :
    rawOffset l n m < r ↔ l < rawToLogical r n m := by
  constructor
  · intro h
    have hsucc := rawToLogical_succ hm (rawOffset l n m)
    rw [if_neg (rawOffset_off_metadata hn l), rawToLogical_rawOffset hn] at hsucc
    have hmono : rawToLogical (rawOffset l n m + 1) n m ≤ rawToLogical r n m :=
      rawToLogical_mono hm h
    omega
  · intro h
    by_contra hge
    have hmono : rawToLogical r n m ≤ rawToLogical (rawOffset l n m) n m :=
      rawToLogical_mono hm (not_lt.mp hge)
    rw [rawToLogical_rawOffset hn] at hmono
    omega

theorem rawOffset_strictMono (hn : 1 ≤ n) (hm : m ≤ n) : StrictMono fun l => rawOffset l n m := by
  intro a b hab
  have h := (rawOffset_lt_iff hn hm a (rawOffset b n m)).2
  rw [rawToLogical_rawOffset hn] at h
  exact h hab

theorem rawOffset_range (hn : 1 ≤ n) (hm : m ≤ n) :
    Set.range (fun l => rawOffset l n m) = {r | r / PAGE_SIZE % (n + 1) ≠ m} := by
  ext r
  constructor
  · intro hex
    obtain ⟨l, rfl⟩ := hex
    exact rawOffset_off_metadata hn l
  · intro hr
    exact ⟨rawToLogical r n m, rawOffset_rawToLogical hm hr⟩

theorem rawToLogical_count (hn : 1 ≤ n) (hm : m ≤ n) (r : Nat) :
    rawToLogical r n m = Set.ncard {l | rawOffset l n m < r} := by
  have hset : {l | rawOffset l n m < r} = ↑(Finset.range (rawToLogical r n m)) := by
    ext l
    rw [Set.mem_ofPred_eq, rawOffset_lt_iff hn hm, Finset.coe_range, Set.mem_Iio]
  rw [hset, Set.ncard_coe_finset, Finset.card_range]

end Mapping

theorem ececRawToLogicalSize_ok {n m : Nat} (hn : 1 ≤ n) (hm : m ≤ n) (r : Nat) :
    ececRawToLogicalSize r n m = .ok (rawToLogical r n m) := by
  rw [ececRawToLogicalSize, if_neg (by omega), if_neg (by omega), if_neg (by omega)]
  simp only [Int.toNat_natCast]

theorem ececLogicalToRawOffset_ok {n m : Nat} (hn : 1 ≤ n) (hm : m ≤ n) (l : Nat) :
    ececLogicalToRawOffset l n m = .ok (rawOffset l n m) := by
  rw [ececLogicalToRawOffset, if_neg (by omega), if_neg (by omega), if_neg (by omega)]
  simp only [Int.toNat_natCast]

structure AddressMap (n m : Nat) : Prop where
  offset : ∀ l : Nat, ececLogicalToRawOffset l n m = .ok (rawOffset l n m)
  size : ∀ r : Nat, ececRawToLogicalSize r n m = .ok (rawToLogical r n m)
  increasing : StrictMono fun l => rawOffset l n m
  image : Set.range (fun l => rawOffset l n m) = {r | r / PAGE_SIZE % (n + 1) ≠ m}
  count : ∀ r, rawToLogical r n m = Set.ncard {l | rawOffset l n m < r}
  inverse : ∀ l, rawToLogical (rawOffset l n m) n m = l

theorem addressMap {n m : Nat} (hn : 1 ≤ n) (hm : m ≤ n) : AddressMap n m where
  offset := ececLogicalToRawOffset_ok hn hm
  size := ececRawToLogicalSize_ok hn hm
  increasing := rawOffset_strictMono hn hm
  image := rawOffset_range hn hm
  count := rawToLogical_count hn hm
  inverse := rawToLogical_rawOffset hn

theorem inferEcecPageLayout_mod {raw : List Byte} {layout : ECECPageLayout}
    (h : inferEcecPageLayout raw = .ok layout) :
    layout.metadata_page_mod < layout.raw_pages_per_group := by
  unfold inferEcecPageLayout at h
  dsimp only at h
  split at h
  · cases h
  · split at h
    · rename_i hperiod
      split at h
      · rename_i mod hmods
        cases h
        have hmem : mod ∈ ((metadataPages raw).map (· % metadataPeriod (metadataPages raw))) := by
          rw [← List.mem_dedup, hmods]
          exact List.mem_singleton_self mod
        obtain ⟨page, -, rfl⟩ := List.mem_map.mp hmem
        exact Nat.mod_lt _ (by omega)
      · cases h
    · cases h

/-- A page of an image is at the image's metadata index when it is at the residue in the blob. -/
theorem residue_iff (layout : ECECPageLayout)
    (hmod : layout.metadata_page_mod < layout.raw_pages_per_group) (offset page : Nat) :
    page % layout.raw_pages_per_group = metadataPageIndex layout offset ↔
      (offset / PAGE_SIZE + page) % layout.raw_pages_per_group = layout.metadata_page_mod := by
  have hge := layout.group_ge
  have hlt := metadataPageIndex_lt layout offset
  have hindex : (metadataPageIndex layout offset : Int) =
      ((layout.metadata_page_mod : Int) - (offset / PAGE_SIZE : Nat)) %
        layout.raw_pages_per_group := by
    rw [metadataPageIndex, Int.toNat_of_nonneg (Int.emod_nonneg _ (by omega))]
  have hright : (offset / PAGE_SIZE + page) % layout.raw_pages_per_group =
      layout.metadata_page_mod ↔
      (((offset / PAGE_SIZE : Nat) : Int) + page) % layout.raw_pages_per_group =
        (layout.metadata_page_mod : Int) % layout.raw_pages_per_group := by
    rw [Int.emod_eq_of_lt (a := layout.metadata_page_mod) (by omega) (by omega),
      ← Int.natCast_inj, Int.natCast_emod, Int.natCast_add]
  rw [hright, ← Int.natCast_inj, Int.natCast_emod, hindex,
    Int.emod_eq_emod_iff_emod_sub_eq_zero, Int.emod_eq_emod_iff_emod_sub_eq_zero]
  have hsub : (page : Int) - ((layout.metadata_page_mod : Int) - (offset / PAGE_SIZE : Nat)) =
      ((offset / PAGE_SIZE : Nat) : Int) + page - layout.metadata_page_mod := by ring
  rw [hsub]

theorem headerAt_offset {raw : List Byte} {offset : Nat} {header : ECECHeader}
    (h : headerAt raw offset = some header) : header.offset = offset := by
  unfold headerAt at h
  split at h
  · cases h
  · dsimp only at h
    split at h
    · cases h
    · cases h
      rfl

theorem scanEcecHeaders_offset {raw : List Byte} {header : ECECHeader}
    (h : header ∈ scanEcecHeaders raw) :
    header.offset % PAGE_SIZE = 0 ∧ header.offset < raw.length := by
  obtain ⟨offset, hmem, hat⟩ := List.mem_filterMap.mp h
  rw [headerAt_offset hat]
  obtain ⟨hrange, hlt⟩ := List.mem_filter.mp hmem
  obtain ⟨i, -, rfl⟩ := List.mem_map.mp hrange
  have hlt' : i * PAGE_SIZE + 0x4C < raw.length := by simpa using hlt
  exact ⟨Nat.mul_mod_left _ _, by omega⟩

structure ImageOf (raw : List Byte) (layout : ECECPageLayout) (spans : List (Nat × Nat))
    (header : ECECHeader) (next : Nat) (image : FoundImage) : Prop where
  ordered : header.offset ≤ next
  offset : image.offset = header.offset
  base : image.header_field_44 - image.header_field_48 = header.load_base
  pages : image.logical_pages_per_raw_group + 1 = layout.raw_pages_per_group
  index : image.metadata_page_index = metadataPageIndex layout header.offset
  span : image.span_size = min (rawOffset ((spanOf spans header.load_base).getD
      (rawToLogical (next - header.offset) image.logical_pages_per_raw_group
        image.metadata_page_index)) image.logical_pages_per_raw_group image.metadata_page_index)
    (raw.length - header.offset)

theorem imageAt_ok {raw : List Byte} {layout : ECECPageLayout} {spans : List (Nat × Nat)}
    {i : Nat} {header : ECECHeader} {next : Nat} {image : FoundImage}
    (h : imageAt raw layout spans i header next = .ok image) :
    ImageOf raw layout spans header next image := by
  have hn : 1 ≤ layout.raw_pages_per_group - 1 := Nat.le_sub_of_add_le layout.group_ge
  have hm := Nat.le_sub_one_of_lt (metadataPageIndex_lt layout header.offset)
  have hge := layout.group_ge
  unfold imageAt at h
  dsimp only at h
  by_cases hle : header.offset ≤ next
  · have hdist : (next : Int) - header.offset = ((next - header.offset : Nat) : Int) := by omega
    rw [hdist, ececRawToLogicalSize_ok hn hm] at h
    simp only [bind, Except.bind] at h
    rw [ececLogicalToRawOffset_ok hn hm] at h
    cases h
    exact ⟨hle, rfl, rfl, by dsimp only; omega, rfl, rfl⟩
  · rw [ececRawToLogicalSize, if_pos (by omega)] at h
    cases h

/-- The images come from the headers in turn. -/
theorem imagesFrom_ok {raw : List Byte} {layout : ECECPageLayout} {spans : List (Nat × Nat)}
    {i : Nat} {headers : List ECECHeader} {images : List FoundImage}
    (h : imagesFrom raw layout spans i headers = .ok images) :
    images.length = headers.length ∧ ∀ (k : Nat) (image : FoundImage), images[k]? = some image →
      ∃ header, headers[k]? = some header ∧
        ImageOf raw layout spans header (nextOffset raw (headers.drop (k + 1))) image := by
  induction headers generalizing i images with
  | nil =>
    cases h
    exact ⟨rfl, fun k image hk => by cases hk⟩
  | cons header rest ih =>
    rw [imagesFrom] at h
    cases hat : imageAt raw layout spans i header (nextOffset raw rest) with
    | error e =>
      rw [hat] at h
      cases h
    | ok first =>
      cases hrest : imagesFrom raw layout spans (i + 1) rest with
      | error e =>
        rw [hat] at h
        simp only [bind, Except.bind, hrest] at h
        cases h
      | ok others =>
        rw [hat] at h
        simp only [bind, Except.bind, hrest] at h
        cases h
        obtain ⟨hlen, hothers⟩ := ih hrest
        refine ⟨by rw [List.length_cons, List.length_cons, hlen], ?_⟩
        intro k image hk
        cases k with
        | zero =>
          cases hk
          exact ⟨header, rfl, imageAt_ok hat⟩
        | succ k => exact hothers k image hk

structure ImagesMapped (raw : List Byte) (layout : ECECPageLayout) (images : List FoundImage) :
    Prop where
  residue : layout.metadata_page_mod < layout.raw_pages_per_group
  off_metadata : ∀ image ∈ images, ∀ pointer r,
    ececPointerToOffset image.toECECImage pointer = .ok (some r) →
      (image.offset + r) / PAGE_SIZE % layout.raw_pages_per_group ≠ layout.metadata_page_mod
  fallback : ∀ k a b, images[k]? = some a → images[k + 1]? = some b →
    spanOf (scanChainSpans raw (scanEcecHeaders raw)) (a.header_field_44 - a.header_field_48) =
      none →
    b.offset / PAGE_SIZE % layout.raw_pages_per_group ≠ layout.metadata_page_mod →
      a.offset + a.span_size = b.offset

theorem ImageOf.off_metadata {raw : List Byte} {layout : ECECPageLayout}
    {spans : List (Nat × Nat)} {header : ECECHeader} {next : Nat} {image : FoundImage}
    (h : ImageOf raw layout spans header next image)
    (hmod : layout.metadata_page_mod < layout.raw_pages_per_group)
    (hpage : header.offset % PAGE_SIZE = 0) {pointer : Int} {r : Nat}
    (hr : ececPointerToOffset image.toECECImage pointer = .ok (some r)) :
    (image.offset + r) / PAGE_SIZE % layout.raw_pages_per_group ≠ layout.metadata_page_mod := by
  obtain ⟨l, -, rfl, -⟩ := ececPointerToOffset_some hr
  have hoff := rawOffset_off_metadata (m := image.metadata_page_index) image.group_pos l
  rw [h.pages, h.index] at hoff
  have hdiv : (image.offset + rawOffset l image.logical_pages_per_raw_group
      image.metadata_page_index) / PAGE_SIZE = header.offset / PAGE_SIZE +
      rawOffset l image.logical_pages_per_raw_group image.metadata_page_index / PAGE_SIZE := by
    rw [h.offset, Nat.add_div_of_dvd_right (Nat.dvd_of_mod_eq_zero hpage)]
  rw [hdiv, Ne, ← residue_iff layout hmod, ← h.index]
  rwa [h.index]

theorem ImageOf.fallback {raw : List Byte} {layout : ECECPageLayout}
    {spans : List (Nat × Nat)} {header next : ECECHeader} {image : FoundImage}
    (h : ImageOf raw layout spans header next.offset image)
    (hmod : layout.metadata_page_mod < layout.raw_pages_per_group)
    (hpage : header.offset % PAGE_SIZE = 0) (hnext : next.offset % PAGE_SIZE = 0)
    (hlen : next.offset < raw.length) (hspan : spanOf spans header.load_base = none)
    (hres : next.offset / PAGE_SIZE % layout.raw_pages_per_group ≠ layout.metadata_page_mod) :
    image.offset + image.span_size = next.offset := by
  have hle := h.ordered
  have hm := image.index_le
  obtain ⟨a, ha⟩ := Nat.dvd_of_mod_eq_zero hpage
  obtain ⟨b, hb⟩ := Nat.dvd_of_mod_eq_zero hnext
  have hsize : 0 < PAGE_SIZE := by decide
  have hdist : (next.offset - header.offset) / PAGE_SIZE = b - a := by
    rw [ha, hb, ← Nat.mul_sub, Nat.mul_div_cancel_left _ hsize]
  have hab : a ≤ b := by
    rw [ha, hb] at hle
    exact Nat.le_of_mul_le_mul_left hle hsize
  have hoff : (next.offset - header.offset) / PAGE_SIZE %
      (image.logical_pages_per_raw_group + 1) ≠ image.metadata_page_index := by
    rw [h.pages, h.index, Ne, residue_iff layout hmod, hdist, ha, Nat.mul_div_cancel_left _ hsize,
      Nat.add_sub_cancel' hab]
    rwa [hb, Nat.mul_div_cancel_left _ hsize] at hres
  rw [h.span, hspan, Option.getD_none, rawOffset_rawToLogical hm hoff, h.offset]
  omega

theorem ecec_mapping_exact :
    (∀ n m : Nat, 1 ≤ n → m ≤ n → AddressMap n m) ∧
    ∀ (raw : List Byte) (images : List FoundImage), findEcecImages raw = .ok images →
      ∃ layout, inferEcecPageLayout raw = .ok layout ∧ ImagesMapped raw layout images := by
  refine ⟨fun n m => addressMap, fun raw images h => ?_⟩
  unfold findEcecImages at h
  cases hlayout : inferEcecPageLayout raw with
  | error e =>
    rw [hlayout] at h
    cases h
  | ok layout =>
    rw [hlayout] at h
    have hmod := inferEcecPageLayout_mod hlayout
    obtain ⟨-, himages⟩ := imagesFrom_ok h
    refine ⟨layout, rfl, hmod, ?_, ?_⟩
    · intro image hmem pointer r hr
      obtain ⟨k, hk⟩ := List.mem_iff_getElem?.mp hmem
      obtain ⟨header, hheader, hof⟩ := himages k image hk
      exact hof.off_metadata hmod (scanEcecHeaders_offset (List.mem_of_getElem? hheader)).1 hr
    · intro k a b hka hkb hspan hres
      obtain ⟨header, hheader, hof⟩ := himages k a hka
      obtain ⟨next, hnext, hofb⟩ := himages (k + 1) b hkb
      have hdrop : (scanEcecHeaders raw).drop (k + 1) =
          next :: (scanEcecHeaders raw).drop (k + 2) := by
        obtain ⟨hlt, rfl⟩ := List.getElem?_eq_some_iff.mp hnext
        exact List.drop_eq_getElem_cons hlt
      rw [hdrop] at hof
      have hnear : ImageOf raw layout (scanChainSpans raw (scanEcecHeaders raw)) header
        next.offset a := hof
      rw [hof.base] at hspan
      rw [hofb.offset] at hres ⊢
      obtain ⟨hpage, -⟩ := scanEcecHeaders_offset (List.mem_of_getElem? hheader)
      obtain ⟨hpage', hlen⟩ := scanEcecHeaders_offset (List.mem_of_getElem? hnext)
      exact hnear.fallback hmod hpage hpage' hlen hspan hres

def headerPage (base : Byte) : List Byte :=
  List.replicate 0x40 0 ++ [0x45, 0x43, 0x45, 0x43] ++ [0x40, 0, base, 0x80, 0x40, 0, 0, 0] ++
    List.replicate (PAGE_SIZE - 0x4C) 0

def metadataPage : List Byte :=
  [0, 0, 0, 0, 0xFD, 0xFF, 0xFB, 0xFF] ++ List.replicate (PAGE_SIZE - 8) 0xFF

def twoImages : List Byte := headerPage 1 ++ metadataPage ++ headerPage 2 ++ metadataPage

theorem twoImages_found : (findEcecImages twoImages).toOption.map List.length = some 2 := by
  decide +kernel

theorem ecec_mapping_exact_two :
    AddressMap 3 3 ∧ ∃ layout images, images.length = 2 ∧ ImagesMapped twoImages layout images := by
  refine ⟨ecec_mapping_exact.1 3 3 (by decide) (by decide), ?_⟩
  have hfound := twoImages_found
  cases h : findEcecImages twoImages with
  | error e =>
    rw [h] at hfound
    cases hfound
  | ok images =>
    rw [h] at hfound
    obtain ⟨layout, -, hmapped⟩ := ecec_mapping_exact.2 twoImages images h
    exact ⟨layout, images, Option.some.inj hfound, hmapped⟩

end AipcOs.Ecec
