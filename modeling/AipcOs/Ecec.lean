import AipcOs.ByteMemory

/-! ECEC images: logical ROM addresses, and the stored blob with one metadata page in every
group of pages. -/
namespace AipcOs.Ecec
open ByteMemory

def PAGE_SIZE : Nat := 0x800
def CECOMPRESS_FLAG : Nat := 0x2000

/-- The fields that the address mapping reads, in the ranges `find_ecec_images` gives them. -/
structure ECECImage where
  load_base : Int
  logical_size : Nat
  span_size : Nat
  logical_pages_per_raw_group : Nat
  metadata_page_index : Nat
  group_pos : 1 ≤ logical_pages_per_raw_group
  index_le : metadata_page_index ≤ logical_pages_per_raw_group

structure O32RomSection where
  index : Nat
  virtual_size : Nat
  physical_size : Nat
  data_pointer : Int
  flags : Nat

/-- The stored offset of a logical one, for a group of `n` logical pages with the metadata
page at `m`. -/
def rawOffset (l n m : Nat) : Nat :=
  let inGroup := l / PAGE_SIZE % n
  (l / PAGE_SIZE / n * (n + 1) + if m ≤ inGroup then inGroup + 1 else inGroup) * PAGE_SIZE +
    l % PAGE_SIZE

def ececLogicalToRawOffset (logicalOffset n m : Int) : Except String Nat :=
  if logicalOffset < 0 then .error "negative ECEC logical offset"
  else if n ≤ 0 then .error "invalid ECEC raw group size"
  else if ¬ (0 ≤ m ∧ m ≤ n) then .error "invalid ECEC metadata page index"
  else .ok (rawOffset logicalOffset.toNat n.toNat m.toNat)

def ececPointerToOffset (image : ECECImage) (pointer : Int) : Except String (Option Nat) := do
  let logicalOffset := pointer - image.load_base
  if logicalOffset < 0 ∨ logicalOffset ≥ image.logical_size then return none
  let raw ← ececLogicalToRawOffset logicalOffset image.logical_pages_per_raw_group
    image.metadata_page_index
  if raw ≥ image.span_size then return none
  return some raw

def sectionRange (raw : List Byte) (image : ECECImage) (s : O32RomSection) :
    Except String (Option (Nat × Nat)) := do
  if s.physical_size = 0 then return none
  match ← ececPointerToOffset image s.data_pointer with
  | none => return none
  | some source =>
    if source ≥ raw.length then return none
    return some (source, min raw.length (source + s.physical_size))

def decompressError (index source : Nat) (exc : String) : String :=
  "failed to decompress section " ++ toString index ++ " at 0x" ++
    String.ofList ((Nat.toDigits 16 source).map Char.toUpper) ++ ": " ++ exc

/-- `decompress` is `maybe_decompress_cecompress`. -/
def readModuleSectionPayload (decompress : List Byte → Nat → Except String (Option (List Byte)))
    (raw : List Byte) (image : ECECImage) (s : O32RomSection) :
    Except String (List Byte × Bool) := do
  match ← sectionRange raw image s with
  | none => return ([], false)
  | some (start, stop) =>
    let data := (raw.drop start).take (stop - start)
    if s.flags &&& CECOMPRESS_FLAG ≠ 0 then
      match ← (decompress data s.virtual_size).mapError (decompressError s.index start) with
      | some plain => return (plain, true)
      | none => return (data, false)
    return (data, false)

def metadataBefore (n m page : Nat) : Nat := (page + (n - m)) / n

theorem rawOffset_eq {n m : Nat} (hn : 1 ≤ n) (hm : m ≤ n) (l : Nat) :
    rawOffset l n m = l + metadataBefore n m (l / PAGE_SIZE) * PAGE_SIZE := by
  have hq : l / PAGE_SIZE % n < n := Nat.mod_lt _ hn
  have hpage := Nat.div_add_mod (l / PAGE_SIZE) n
  have hmeta : metadataBefore n m (l / PAGE_SIZE) =
      l / PAGE_SIZE / n + if m ≤ l / PAGE_SIZE % n then 1 else 0 := by
    have hsplit : l / PAGE_SIZE + (n - m) =
        n * (l / PAGE_SIZE / n) + (l / PAGE_SIZE % n + (n - m)) := by omega
    rw [metadataBefore, hsplit, Nat.mul_add_div hn]
    congr 1
    split
    · exact Nat.div_eq_of_lt_le (by omega) (by omega)
    · exact Nat.div_eq_of_lt (by omega)
  have hl := Nat.div_add_mod l PAGE_SIZE
  have hraw : l / PAGE_SIZE / n * (n + 1) +
      (if m ≤ l / PAGE_SIZE % n then l / PAGE_SIZE % n + 1 else l / PAGE_SIZE % n) =
      l / PAGE_SIZE + metadataBefore n m (l / PAGE_SIZE) := by
    rw [hmeta, Nat.mul_succ, Nat.mul_comm (l / PAGE_SIZE / n) n]
    split <;> omega
  simp only [rawOffset]
  rw [hraw, Nat.add_mul, Nat.mul_comm (l / PAGE_SIZE) PAGE_SIZE]
  omega

theorem metadataBefore_mono (n m : Nat) {p q : Nat} (h : p ≤ q) :
    metadataBefore n m p ≤ metadataBefore n m q :=
  Nat.div_le_div_right (Nat.add_le_add_right h _)

def IsMetadataPage (image : ECECImage) (page : Nat) : Prop :=
  page % (image.logical_pages_per_raw_group + 1) = image.metadata_page_index

theorem rawOffset_not_metadata (image : ECECImage) (l : Nat) :
    ¬ IsMetadataPage image (rawOffset l image.logical_pages_per_raw_group
      image.metadata_page_index / PAGE_SIZE) := by
  have hq : l / PAGE_SIZE % image.logical_pages_per_raw_group <
      image.logical_pages_per_raw_group := Nat.mod_lt _ image.group_pos
  have hsize : 0 < PAGE_SIZE := by decide
  simp only [IsMetadataPage, rawOffset]
  rw [Nat.add_comm, Nat.add_mul_div_right _ _ hsize, Nat.div_eq_of_lt (Nat.mod_lt l hsize),
    Nat.zero_add, Nat.add_comm, Nat.add_mul_mod_self_right]
  split
  · rw [Nat.mod_eq_of_lt (by omega)]
    omega
  · rw [Nat.mod_eq_of_lt (by omega)]
    omega

/-- A metadata page is stored in front of the logical pages `g * n + m`. -/
theorem metadataBefore_of_lt {n m p g : Nat} (hn : 1 ≤ n) (hm : m ≤ n) (h : p < g * n + m) :
    metadataBefore n m p ≤ g := by
  refine Nat.le_of_lt_succ ((Nat.div_lt_iff_lt_mul hn).mpr ?_)
  rw [Nat.succ_mul]
  omega

theorem metadataBefore_of_ge {n m q g : Nat} (hn : 1 ≤ n) (hm : m ≤ n) (h : g * n + m ≤ q) :
    g < metadataBefore n m q := by
  refine (Nat.le_div_iff_mul_le hn).mpr ?_
  rw [Nat.succ_mul]
  omega

theorem first_crossing {n m p q : Nat} (hn : 1 ≤ n) (hm : m ≤ n)
    (h : metadataBefore n m p < metadataBefore n m q) :
    p < metadataBefore n m p * n + m ∧ metadataBefore n m p * n + m ≤ q := by
  have hp : p + (n - m) < (metadataBefore n m p + 1) * n :=
    (Nat.div_lt_iff_lt_mul hn).mp (Nat.lt_succ_self _)
  have hq : (metadataBefore n m p + 1) * n ≤ q + (n - m) :=
    (Nat.le_div_iff_mul_le hn).mp h
  rw [Nat.succ_mul] at hp hq
  omega

def firstByte (image : ECECImage) (s : O32RomSection) : Nat :=
  (s.data_pointer - image.load_base).toNat

def CrossesMetadata (image : ECECImage) (s : O32RomSection) : Prop :=
  ∃ g, firstByte image s / PAGE_SIZE <
      g * image.logical_pages_per_raw_group + image.metadata_page_index ∧
    g * image.logical_pages_per_raw_group + image.metadata_page_index ≤
      (firstByte image s + s.physical_size - 1) / PAGE_SIZE

def Mapped (image : ECECImage) (s : O32RomSection) : Prop :=
  ∀ k : Nat, k < s.physical_size →
    ∃ r, ececPointerToOffset image (s.data_pointer + k) = .ok (some r)

def SectionExact (decompress : List Byte → Nat → Except String (Option (List Byte)))
    (raw : List Byte) (image : ECECImage) (s : O32RomSection) : Prop :=
  ∃ data, readModuleSectionPayload decompress raw image s = .ok (data, false) ∧
    data.length = s.physical_size ∧
    (∀ k : Nat, k < s.physical_size → ∃ r,
      ececLogicalToRawOffset (s.data_pointer - image.load_base + k)
        image.logical_pages_per_raw_group image.metadata_page_index = .ok r ∧
      data[k]? = raw[r]?) ∧
    ∀ start stop, sectionRange raw image s = .ok (some (start, stop)) →
      ∀ i, start ≤ i → i < stop → ¬ IsMetadataPage image (i / PAGE_SIZE)

theorem ececLogicalToRawOffset_image (image : ECECImage) (l : Nat) :
    ececLogicalToRawOffset l image.logical_pages_per_raw_group image.metadata_page_index =
      .ok (rawOffset l image.logical_pages_per_raw_group image.metadata_page_index) := by
  have hn := image.group_pos
  have hm := image.index_le
  rw [ececLogicalToRawOffset, if_neg (by omega), if_neg (by omega), if_neg (by omega)]
  simp only [Int.toNat_natCast]

theorem ececPointerToOffset_some {image : ECECImage} {pointer : Int} {r : Nat}
    (h : ececPointerToOffset image pointer = .ok (some r)) :
    ∃ l : Nat, pointer - image.load_base = l ∧
      r = rawOffset l image.logical_pages_per_raw_group image.metadata_page_index ∧
      r < image.span_size := by
  unfold ececPointerToOffset at h
  by_cases hrange : pointer - image.load_base < 0 ∨
      pointer - image.load_base ≥ image.logical_size
  · simp only [if_pos hrange] at h
    cases h
  · have hnonneg : 0 ≤ pointer - image.load_base := by omega
    obtain ⟨l, hl⟩ := Int.eq_ofNat_of_zero_le hnonneg
    simp only [if_neg hrange] at h
    rw [hl, ececLogicalToRawOffset_image] at h
    change (if _ ≥ image.span_size then Except.ok none else Except.ok (some _)) = _ at h
    refine ⟨l, hl, ?_⟩
    split at h
    · cases h
    · next hspan =>
      cases h
      exact ⟨rfl, not_le.mp hspan⟩

theorem ececPointerToOffset_of_lt (image : ECECImage) (l : Nat) (hl : l < image.logical_size)
    (hraw : rawOffset l image.logical_pages_per_raw_group image.metadata_page_index <
      image.span_size) :
    ececPointerToOffset image (image.load_base + l) =
      .ok (some (rawOffset l image.logical_pages_per_raw_group image.metadata_page_index)) := by
  have hoff : image.load_base + l - image.load_base = l := by omega
  unfold ececPointerToOffset
  simp only [hoff]
  rw [if_neg (by omega), ececLogicalToRawOffset_image]
  change (if _ ≥ image.span_size then Except.ok none else Except.ok (some _)) = _
  rw [if_neg (not_le.mpr hraw)]

section Section
variable {decompress : List Byte → Nat → Except String (Option (List Byte))} {raw : List Byte}
  {image : ECECImage} {s : O32RomSection}

/-- Where the bytes of a mapped section are stored. -/
theorem Mapped.byte (hmap : Mapped image s) {k : Nat} (hk : k < s.physical_size) :
    s.data_pointer - image.load_base + k = (firstByte image s + k : Nat) ∧
    rawOffset (firstByte image s + k) image.logical_pages_per_raw_group
      image.metadata_page_index < image.span_size := by
  obtain ⟨r₀, h₀⟩ := hmap 0 (by omega)
  obtain ⟨l₀, hl₀, -⟩ := ececPointerToOffset_some h₀
  obtain ⟨r, h⟩ := hmap k hk
  obtain ⟨l, hl, rfl, hlt⟩ := ececPointerToOffset_some h
  have hfirst : firstByte image s = l₀ := by
    unfold firstByte
    omega
  have hlk : l = firstByte image s + k := by omega
  exact ⟨by omega, hlk ▸ hlt⟩

theorem Mapped.range (hmap : Mapped image s) (hspan : image.span_size ≤ raw.length)
    (hpos : s.physical_size ≠ 0) :
    sectionRange raw image s = .ok (some
      (rawOffset (firstByte image s) image.logical_pages_per_raw_group image.metadata_page_index,
       min raw.length (rawOffset (firstByte image s) image.logical_pages_per_raw_group
         image.metadata_page_index + s.physical_size))) := by
  have hk : 0 < s.physical_size := Nat.pos_of_ne_zero hpos
  obtain ⟨r, h⟩ := hmap 0 hk
  obtain ⟨l, hl, hr, hlt⟩ := ececPointerToOffset_some h
  have hfirst : firstByte image s = l := by
    unfold firstByte
    omega
  rw [Nat.cast_zero, Int.add_zero] at h
  unfold sectionRange
  rw [if_neg hpos, h, hfirst, ← hr]
  change (if r ≥ raw.length then Except.ok none else Except.ok (some _)) = _
  rw [if_neg (by omega)]

theorem payload_uncompressed (hplain : s.flags &&& CECOMPRESS_FLAG = 0) {start stop : Nat}
    (hrange : sectionRange raw image s = .ok (some (start, stop))) :
    readModuleSectionPayload decompress raw image s =
      .ok ((raw.drop start).take (stop - start), false) := by
  unfold readModuleSectionPayload
  rw [hrange]
  change (if s.flags &&& CECOMPRESS_FLAG ≠ 0 then _ else Except.ok _) = _
  rw [if_neg (not_not.mpr hplain)]

theorem payload_empty (h : s.physical_size = 0) :
    sectionRange raw image s = .ok none ∧
      readModuleSectionPayload decompress raw image s = .ok ([], false) := by
  have hrange : sectionRange raw image s = .ok none := by
    unfold sectionRange
    rw [if_pos h]
    rfl
  refine ⟨hrange, ?_⟩
  unfold readModuleSectionPayload
  rw [hrange]
  rfl

/-- Without a metadata page in between, the section is stored in one piece. -/
theorem rawOffset_contiguous (hcross : ¬ CrossesMetadata image s) {k : Nat}
    (hk : k < s.physical_size) :
    rawOffset (firstByte image s + k) image.logical_pages_per_raw_group
        image.metadata_page_index =
      rawOffset (firstByte image s) image.logical_pages_per_raw_group
        image.metadata_page_index + k := by
  have hn := image.group_pos
  have hm := image.index_le
  have hle : (firstByte image s + k) / PAGE_SIZE ≤
      (firstByte image s + s.physical_size - 1) / PAGE_SIZE :=
    Nat.div_le_div_right (by omega)
  have hsame : metadataBefore image.logical_pages_per_raw_group image.metadata_page_index
        ((firstByte image s + k) / PAGE_SIZE) =
      metadataBefore image.logical_pages_per_raw_group image.metadata_page_index
        (firstByte image s / PAGE_SIZE) := by
    refine le_antisymm ?_ (metadataBefore_mono _ _ (Nat.div_le_div_right (by omega)))
    by_contra hlt
    obtain ⟨hafter, hbefore⟩ := first_crossing hn hm (not_le.mp hlt)
    exact hcross ⟨_, hafter, le_trans hbefore hle⟩
  rw [rawOffset_eq hn hm, rawOffset_eq hn hm, hsame]
  omega

/-- Otherwise the slice runs over the first metadata page behind its start. -/
theorem exists_metadata_page (hcross : CrossesMetadata image s) {stop : Nat}
    (hstop : rawOffset (firstByte image s) image.logical_pages_per_raw_group
      image.metadata_page_index + s.physical_size ≤ stop) :
    ∃ i, rawOffset (firstByte image s) image.logical_pages_per_raw_group
        image.metadata_page_index ≤ i ∧ i < stop ∧ IsMetadataPage image (i / PAGE_SIZE) := by
  obtain ⟨g, hafter, hbefore⟩ := hcross
  have hn := image.group_pos
  have hm := image.index_le
  have hlt := lt_of_le_of_lt (metadataBefore_of_lt hn hm hafter)
    (metadataBefore_of_ge hn hm hbefore)
  obtain ⟨hfrom, hto⟩ := first_crossing hn hm hlt
  rw [rawOffset_eq hn hm] at hstop ⊢
  generalize metadataBefore image.logical_pages_per_raw_group image.metadata_page_index
    (firstByte image s / PAGE_SIZE) = c at hfrom hto hstop ⊢
  have hsize : 0 < PAGE_SIZE := by decide
  have hfirst := (Nat.div_lt_iff_lt_mul hsize).mp hfrom
  have hlast := (Nat.le_div_iff_mul_le hsize).mp hto
  refine ⟨(c * image.logical_pages_per_raw_group + image.metadata_page_index + c) * PAGE_SIZE,
    ?_, ?_, ?_⟩
  · rw [Nat.add_mul _ c]
    omega
  · rw [Nat.add_mul _ c]
    omega
  · have hpage : c * image.logical_pages_per_raw_group + image.metadata_page_index + c =
        image.metadata_page_index + c * (image.logical_pages_per_raw_group + 1) := by ring
    rw [IsMetadataPage, Nat.mul_div_cancel _ hsize, hpage, Nat.add_mul_mod_self_right]
    exact Nat.mod_eq_of_lt (Nat.lt_succ_of_le hm)

theorem readModuleSectionPayload_exact_iff
    (decompress : List Byte → Nat → Except String (Option (List Byte))) (raw : List Byte)
    (image : ECECImage) (s : O32RomSection) (hspan : image.span_size ≤ raw.length)
    (hplain : s.flags &&& CECOMPRESS_FLAG = 0) (hmap : Mapped image s) :
    SectionExact decompress raw image s ↔ ¬ CrossesMetadata image s := by
  have hn := image.group_pos
  have hm := image.index_le
  by_cases hsize : s.physical_size = 0
  · have hempty : sectionRange raw image s = .ok none ∧
        readModuleSectionPayload decompress raw image s = .ok ([], false) := payload_empty hsize
    obtain ⟨hrange, hpayload⟩ := hempty
    refine iff_of_true ⟨[], hpayload, hsize.symm, ?_, ?_⟩ ?_
    · intro k hk
      omega
    · intro start stop h
      rw [hrange] at h
      cases h
    · intro hex
      obtain ⟨g, hafter, hbefore⟩ := hex
      have hback : (firstByte image s + s.physical_size - 1) / PAGE_SIZE ≤
          firstByte image s / PAGE_SIZE := Nat.div_le_div_right (by omega)
      omega
  · have hrange := hmap.range hspan hsize
    have hend : rawOffset (firstByte image s) image.logical_pages_per_raw_group
        image.metadata_page_index + s.physical_size ≤ raw.length := by
      have hlast := (hmap.byte (k := s.physical_size - 1) (by omega)).2
      rw [rawOffset_eq hn hm] at hlast ⊢
      have hmono := Nat.mul_le_mul_right PAGE_SIZE (metadataBefore_mono
        image.logical_pages_per_raw_group image.metadata_page_index
        (Nat.div_le_div_right (c := PAGE_SIZE)
          (Nat.le_add_right (firstByte image s) (s.physical_size - 1))))
      omega
    rw [Nat.min_eq_right hend] at hrange
    constructor
    · intro hex hcross
      obtain ⟨data, -, -, -, hmeta⟩ := hex
      obtain ⟨i, hstart, hstop, hi⟩ := exists_metadata_page hcross le_rfl
      exact hmeta _ _ hrange i hstart hstop hi
    · intro hcross
      refine ⟨_, payload_uncompressed hplain hrange, ?_, ?_, ?_⟩
      · rw [List.length_take, List.length_drop]
        omega
      · intro k hk
        refine ⟨rawOffset (firstByte image s + k) image.logical_pages_per_raw_group
          image.metadata_page_index, ?_, ?_⟩
        · rw [(hmap.byte hk).1]
          exact ececLogicalToRawOffset_image image _
        · rw [rawOffset_contiguous hcross hk, List.getElem?_take_of_lt (by omega),
            List.getElem?_drop]
      · intro start stop h i hstart hstop
        rw [hrange] at h
        cases h
        obtain ⟨k, rfl⟩ := Nat.exists_eq_add_of_le hstart
        rw [← rawOffset_contiguous hcross (by omega)]
        exact rawOffset_not_metadata image _

end Section

def sampleImage : ECECImage := ⟨0, 4096, 6144, 1, 1, by decide, by decide⟩

def sampleBlob : List Byte :=
  List.replicate PAGE_SIZE 1 ++ List.replicate PAGE_SIZE 0xFF ++ List.replicate PAGE_SIZE 2

theorem sampleBlob_length : sampleBlob.length = 6144 := by
  rw [sampleBlob, List.length_append, List.length_append, List.length_replicate,
    List.length_replicate, List.length_replicate]
  rfl

theorem sampleBlob_metadata : sampleBlob[2048]? = some 0xFF := by
  rw [sampleBlob, List.getElem?_append_left, List.getElem?_append_right,
    List.getElem?_replicate_of_lt]
  · rw [List.length_replicate]
    decide
  · rw [List.length_replicate]
    decide
  · rw [List.length_append, List.length_replicate, List.length_replicate]
    decide

theorem sampleBlob_second : sampleBlob[4096]? = some 2 := by
  rw [sampleBlob, List.getElem?_append_right, List.getElem?_replicate_of_lt]
  · rw [List.length_append, List.length_replicate, List.length_replicate]
    decide
  · rw [List.length_append, List.length_replicate, List.length_replicate]
    decide

theorem sampleImage_mapped (size : Nat) (h : size ≤ 4096) :
    Mapped sampleImage ⟨0, size, size, 0, 0⟩ := by
  intro k hk
  have hlt : k < 4096 := lt_of_lt_of_le hk h
  have hraw : rawOffset k 1 1 < 6144 := by
    rw [rawOffset_eq le_rfl le_rfl, metadataBefore, Nat.sub_self, Nat.add_zero, Nat.div_one,
      PAGE_SIZE]
    omega
  exact ⟨_, ececPointerToOffset_of_lt sampleImage k hlt hraw⟩

theorem readModuleSectionPayload_onePage :
    SectionExact (fun _ _ => .ok none) sampleBlob sampleImage ⟨0, 2048, 2048, 0, 0⟩ := by
  refine (readModuleSectionPayload_exact_iff _ _ _ _ ?_ rfl (sampleImage_mapped 2048 ?_)).mpr ?_
  · exact le_of_eq sampleBlob_length.symm
  · omega
  · intro hex
    obtain ⟨g, hafter, hbefore⟩ := hex
    exact absurd (lt_of_lt_of_le hafter hbefore) (by decide)

/-- One byte more, and the metadata page is taken for the second logical page. -/
theorem readModuleSectionPayload_reads_metadata :
    ¬ ∀ (decompress : List Byte → Nat → Except String (Option (List Byte))) (raw : List Byte)
      (image : ECECImage) (s : O32RomSection), image.span_size ≤ raw.length →
      s.flags &&& CECOMPRESS_FLAG = 0 → Mapped image s → SectionExact decompress raw image s := by
  intro h
  have hspan : sampleImage.span_size ≤ sampleBlob.length :=
    le_of_eq sampleBlob_length.symm
  have hmap := sampleImage_mapped 2049 (by omega)
  obtain ⟨data, hread, -, hbytes, -⟩ :=
    h (fun _ _ => .ok none) sampleBlob sampleImage ⟨0, 2049, 2049, 0, 0⟩ hspan rfl hmap
  have hrange := hmap.range hspan (by decide)
  rw [payload_uncompressed rfl hrange] at hread
  obtain ⟨r, hr, hbyte⟩ := hbytes 2048 (by decide)
  have hr' : r = 4096 := (Except.ok.inj hr).symm
  have hdata := (Prod.mk.inj (Except.ok.inj hread)).1
  have hsame : sampleBlob[2048]? = sampleBlob[4096]? := by
    rw [← hdata, hr', List.getElem?_take_of_lt, List.getElem?_drop] at hbyte
    · exact hbyte
    · rw [sampleBlob_length]
      decide
  rw [sampleBlob_metadata, sampleBlob_second] at hsame
  exact absurd hsame (by decide)

end AipcOs.Ecec
