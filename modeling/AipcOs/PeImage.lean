import AipcOs.ByteStores
import AipcOs.PeSections

/-! The PE file written from a list of sections, and the reading of it by its headers. -/
namespace AipcOs.PeImage
open ByteMemory StructBytes ByteStores Ecec RomModule PeSections

def PE_DOS_HEADER_SIZE : Nat := 0x80
def PE_OPTIONAL_HEADER_SIZE : Nat := 0xE0
def PE_FILE_ALIGNMENT : Nat := 0x200
def PE_MACHINE_ARM : Nat := 0x1C2
def COFF_OFFSET : Nat := PE_DOS_HEADER_SIZE + 4
def OPTIONAL_OFFSET : Nat := COFF_OFFSET + 20
def SECTION_HEADER_OFFSET : Nat := OPTIONAL_OFFSET + PE_OPTIONAL_HEADER_SIZE

structure SectionLayout where
  image_section : PEImageSection
  raw_pointer : Nat
  raw_size : Nat

def rawSize (s : PEImageSection) : Nat :=
  if s.data ≠ [] then alignUp s.data.length PE_FILE_ALIGNMENT else 0

def sectionLayouts (rawCursor : Nat) : List PEImageSection → List SectionLayout
  | [] => []
  | s :: ss =>
    { image_section := s
      raw_pointer := if rawSize s ≠ 0 then rawCursor else 0
      raw_size := rawSize s } :: sectionLayouts (rawCursor + rawSize s) ss

def rawEnd (rawCursor : Nat) (ss : List PEImageSection) : Nat :=
  ss.foldl (fun cursor s => cursor + rawSize s) rawCursor

def headersSize (count : Nat) : Nat :=
  alignUp (PE_DOS_HEADER_SIZE + 4 + 20 + PE_OPTIONAL_HEADER_SIZE + count * 40) PE_FILE_ALIGNMENT

def sizeOfImage (sections : List PEImageSection) : Nat :=
  alignUp ((sections.map fun s => s.rva + sectionSpanLike s.virtual_size s.data.length).foldl max 0)
    PE_SECTION_ALIGNMENT

def isCode (s : PEImageSection) : Bool := s.characteristics &&& 0x20 ≠ 0

def isInitialized (s : PEImageSection) : Bool := s.characteristics &&& 0x40 ≠ 0

def rawSizes (p : PEImageSection → Bool) (layouts : List SectionLayout) : Nat :=
  ((layouts.filter fun l => p l.image_section).map SectionLayout.raw_size).sum

def firstRva (p : PEImageSection → Bool) (sections : List PEImageSection) : Nat :=
  ((sections.find? p).map PEImageSection.rva).getD 0

def nameField (name : List Byte) : List Byte :=
  name.take 8 ++ List.replicate (8 - name.length) 0

def sectionStores (index : Nat) (l : SectionLayout) : List Store :=
  let headerOffset := SECTION_HEADER_OFFSET + index * 40
  let s := l.image_section
  [.bytes headerOffset (nameField s.name),
    .fields (headerOffset + 8) [(4, s.virtual_size), (4, s.rva), (4, l.raw_size),
      (4, l.raw_pointer), (4, 0), (4, 0), (2, 0), (2, 0), (4, s.characteristics)]] ++
    if l.raw_size ≠ 0 ∧ s.data ≠ [] then
      [.bytes l.raw_pointer (s.data.take (min s.data.length l.raw_size))]
    else []

section Build
variable (e32 : E32Rom) (imageBase : Nat) (sections : List PEImageSection)
  (exportRva exportSize importRva importSize : Nat)

def layouts : List SectionLayout := sectionLayouts (headersSize sections.length) sections

def headerStores : List Store :=
  [.bytes 0 [0x4D, 0x5A],
    .fields 0x3C [(4, PE_DOS_HEADER_SIZE)],
    .bytes PE_DOS_HEADER_SIZE [0x50, 0x45, 0, 0],
    .fields COFF_OFFSET [(2, PE_MACHINE_ARM), (2, sections.length), (4, e32.timestamp), (4, 0),
      (4, 0), (2, PE_OPTIONAL_HEADER_SIZE), (2, e32.image_flags)],
    .fields OPTIONAL_OFFSET [(2, 0x10B), (1, 0), (1, 0), (4, rawSizes isCode (layouts sections)),
      (4, rawSizes isInitialized (layouts sections)), (4, 0), (4, e32.entry_rva),
      (4, firstRva isCode sections),
      (4, firstRva (fun s => isInitialized s && !isCode s) sections)],
    .fields (OPTIONAL_OFFSET + 0x1C)
      [(4, imageBase), (4, PE_SECTION_ALIGNMENT), (4, PE_FILE_ALIGNMENT)],
    .fields (OPTIONAL_OFFSET + 0x28) [(2, 5), (2, 0), (2, 0), (2, 0), (2, e32.subsystem_major),
      (2, e32.subsystem_minor)],
    .fields (OPTIONAL_OFFSET + 0x34) [(4, 0)],
    .fields (OPTIONAL_OFFSET + 0x38) [(4, sizeOfImage sections)],
    .fields (OPTIONAL_OFFSET + 0x3C) [(4, headersSize sections.length)],
    .fields (OPTIONAL_OFFSET + 0x40) [(4, 0)],
    .fields (OPTIONAL_OFFSET + 0x44) [(2, e32.subsystem), (2, 0)],
    .fields (OPTIONAL_OFFSET + 0x48) [(4, e32.stack_max), (4, 0x1000), (4, 0x100000), (4, 0x1000),
      (4, 0), (4, 16)],
    .fields (OPTIONAL_OFFSET + 0x60) [(4, exportRva), (4, exportSize)],
    .fields (OPTIONAL_OFFSET + 0x68) [(4, importRva), (4, importSize)]]

def imageStores : List Store :=
  headerStores e32 imageBase sections exportRva exportSize importRva importSize ++
    (layouts sections).zipIdx.flatMap fun p => sectionStores p.2 p.1

def HeadersFit : Prop :=
  ∀ s ∈ imageStores e32 imageBase sections exportRva exportSize importRva importSize, s.Fits

def buildPeImageFromSections : Except String (List Byte) :=
  if sections = [] then .error "max() arg is an empty sequence"
  else (imageStores e32 imageBase sections exportRva exportSize importRva importSize).foldlM store
    (List.replicate (rawEnd (headersSize sections.length) sections) 0)

end Build

structure SectionView where
  name_field : List Byte
  rva : Nat
  virtual_size : Nat
  characteristics : Nat
  raw_pointer : Nat
  raw_size : Nat
  data : List Byte
  deriving DecidableEq

structure PeView where
  section_alignment : Nat
  file_alignment : Nat
  size_of_image : Nat
  size_of_headers : Nat
  sections : List SectionView
  deriving DecidableEq

def readSection (pe : List Byte) (off : Nat) : SectionView where
  name_field := slice pe off 8
  virtual_size := u32 pe (off + 8)
  rva := u32 pe (off + 12)
  raw_size := u32 pe (off + 16)
  raw_pointer := u32 pe (off + 20)
  characteristics := u32 pe (off + 36)
  data := slice pe (u32 pe (off + 20)) (u32 pe (off + 16))

/-- A PE file read by its layout: e_lfanew, COFF header, optional header, section table. -/
def readPe (pe : List Byte) : Option PeView :=
  let coff := u32 pe 0x3C + 4
  let optional := coff + 20
  let table := optional + u16 pe (coff + 16)
  let count := u16 pe (coff + 2)
  if slice pe 0 2 ≠ [0x4D, 0x5A] then none
  else if slice pe (u32 pe 0x3C) 4 ≠ [0x50, 0x45, 0, 0] then none
  else if u16 pe optional ≠ 0x10B then none
  else if pe.length < table + count * 40 then none
  else some {
    section_alignment := u32 pe (optional + 0x20)
    file_alignment := u32 pe (optional + 0x24)
    size_of_image := u32 pe (optional + 0x38)
    size_of_headers := u32 pe (optional + 0x3C)
    sections := (List.range count).map fun i => readSection pe (table + i * 40) }

section Layout

theorem rawSize_eq (s : PEImageSection) : rawSize s = s.data.length +
    (PE_FILE_ALIGNMENT - s.data.length % PE_FILE_ALIGNMENT) % PE_FILE_ALIGNMENT := by
  rw [rawSize]
  split
  · have hup := alignUp_two_pow s.data.length 9
    rw [show (2 : Nat) ^ 9 = PE_FILE_ALIGNMENT from rfl] at hup
    rw [hup]
    simp only [PE_FILE_ALIGNMENT]
    omega
  · rename_i hdata
    rw [not_not.mp hdata]
    rfl

theorem rawSize_dvd (s : PEImageSection) : PE_FILE_ALIGNMENT ∣ rawSize s := by
  rw [rawSize_eq]
  simp only [PE_FILE_ALIGNMENT]
  omega

theorem rawSize_eq_zero (s : PEImageSection) : rawSize s = 0 ↔ s.data = [] := by
  rw [rawSize_eq, ← List.length_eq_zero_iff]
  simp only [PE_FILE_ALIGNMENT]
  omega

theorem headersSize_dvd (count : Nat) : PE_FILE_ALIGNMENT ∣ headersSize count := dvd_alignUp _ 9

/-- The section table ends in front of SizeOfHeaders. -/
theorem table_le_headersSize (count : Nat) :
    SECTION_HEADER_OFFSET + count * 40 ≤ headersSize count := le_alignUp _ 9

structure Placed (lo hi : Nat) (l : SectionLayout) : Prop where
  size : l.raw_size = rawSize l.image_section
  pointer : l.raw_size ≠ 0 → lo ≤ l.raw_pointer ∧ l.raw_pointer + l.raw_size ≤ hi ∧
    PE_FILE_ALIGNMENT ∣ l.raw_pointer

theorem Placed.length_le {lo hi : Nat} {l : SectionLayout} (h : Placed lo hi l) :
    l.image_section.data.length ≤ l.raw_size := by
  rw [h.size, rawSize_eq]
  omega

theorem le_rawEnd (c : Nat) (ss : List PEImageSection) : c ≤ rawEnd c ss := by
  induction ss generalizing c with
  | nil => exact Nat.le_refl c
  | cons s ss ih => exact (Nat.le_add_right c (rawSize s)).trans (ih _)

theorem sectionLayouts_sections (c : Nat) (ss : List PEImageSection) :
    (sectionLayouts c ss).map SectionLayout.image_section = ss := by
  induction ss generalizing c with
  | nil => rfl
  | cons s ss ih => rw [sectionLayouts, List.map_cons, ih]

theorem sectionLayouts_placed {c : Nat} (hc : PE_FILE_ALIGNMENT ∣ c) (ss : List PEImageSection) :
    ∀ l ∈ sectionLayouts c ss, Placed c (rawEnd c ss) l := by
  induction ss generalizing c with
  | nil => nofun
  | cons s ss ih =>
    intro l hl
    obtain rfl | hl := List.mem_cons.mp hl
    · refine ⟨rfl, fun hsize => ?_⟩
      dsimp only at hsize ⊢
      rw [if_pos hsize]
      exact ⟨Nat.le_refl c, le_rawEnd (c + rawSize s) ss, hc⟩
    · have hplaced := ih (hc.add (rawSize_dvd s)) l hl
      refine ⟨hplaced.size, fun hsize => ?_⟩
      obtain ⟨hlo, hhi, hdvd⟩ := hplaced.pointer hsize
      exact ⟨(Nat.le_add_right c (rawSize s)).trans hlo, hhi, hdvd⟩

/-- The bytes of two sections stand one behind the other. -/
theorem sectionLayouts_ordered {c : Nat} (hc : PE_FILE_ALIGNMENT ∣ c)
    (ss : List PEImageSection) :
    (sectionLayouts c ss).Pairwise fun l m => l.raw_size ≠ 0 → m.raw_size ≠ 0 →
      l.raw_pointer + l.raw_size ≤ m.raw_pointer := by
  induction ss generalizing c with
  | nil => exact .nil
  | cons s ss ih =>
    rw [sectionLayouts, List.pairwise_cons]
    refine ⟨fun m hm hl hsize => ?_, ih (hc.add (rawSize_dvd s))⟩
    obtain ⟨hlo, -, -⟩ := (sectionLayouts_placed (hc.add (rawSize_dvd s)) ss m hm).pointer hsize
    dsimp only at hl ⊢
    rwa [if_pos hl]

end Layout

section Write
variable (e32 : E32Rom) (imageBase : Nat) (sections : List PEImageSection)
  (exportRva exportSize importRva importSize : Nat)

theorem nameField_length (name : List Byte) : (nameField name).length = 8 := by
  rw [nameField, List.length_append, List.length_take, List.length_replicate]
  omega

theorem layouts_length : (layouts sections).length = sections.length := by
  have hmap := sectionLayouts_sections (headersSize sections.length) sections
  have hlen := congrArg List.length hmap
  rwa [List.length_map] at hlen

theorem layouts_placed : ∀ l ∈ layouts sections, Placed (headersSize sections.length)
    (rawEnd (headersSize sections.length) sections) l :=
  sectionLayouts_placed (headersSize_dvd _) sections

theorem headerStores_spans :
    (headerStores e32 imageBase sections exportRva exportSize importRva importSize).map
      Store.span = [(0, 2), (0x3C, 4), (0x80, 4), (0x84, 20), (0x98, 28), (0xB4, 12), (0xC0, 12),
        (0xCC, 4), (0xD0, 4), (0xD4, 4), (0xD8, 4), (0xDC, 4), (0xE0, 24), (0xF8, 8),
        (0x100, 8)] := by
  simp [headerStores, Store.span, Store.off, Store.content, packAll_length, width,
    OPTIONAL_OFFSET, COFF_OFFSET, PE_DOS_HEADER_SIZE]

/-- The writes of the headers stay in front of the section table. -/
theorem headerStores_inside {s : Store}
    (hs : s ∈ headerStores e32 imageBase sections exportRva exportSize importRva importSize) :
    s.off + s.content.length ≤ SECTION_HEADER_OFFSET := by
  have hmem : s.span ∈ (headerStores e32 imageBase sections exportRva exportSize importRva
    importSize).map Store.span := List.mem_map_of_mem hs
  rw [headerStores_spans] at hmem
  have hall : ∀ r ∈ [(0, 2), (0x3C, 4), (0x80, 4), (0x84, 20), (0x98, 28), (0xB4, 12), (0xC0, 12),
      (0xCC, 4), (0xD0, 4), (0xD4, 4), (0xD8, 4), (0xDC, 4), (0xE0, 24), (0xF8, 8), (0x100, 8)],
      r.1 + r.2 ≤ SECTION_HEADER_OFFSET := by decide
  exact hall s.span hmem

theorem headerStores_apart :
    (headerStores e32 imageBase sections exportRva exportSize importRva importSize).Pairwise
      fun s t => Apart s.span t.span := by
  rw [← List.pairwise_map, headerStores_spans]
  decide

/-- A section writes into its entry of the table, and its bytes. -/
theorem sectionStores_span {lo hi index : Nat} {l : SectionLayout} (hl : Placed lo hi l)
    {s : Store} (hs : s ∈ sectionStores index l) :
    (SECTION_HEADER_OFFSET + index * 40 ≤ s.off ∧
      s.off + s.content.length ≤ SECTION_HEADER_OFFSET + index * 40 + 40) ∨
    (l.raw_size ≠ 0 ∧ s.off = l.raw_pointer ∧ s.content = l.image_section.data) := by
  have hlen := hl.length_le
  rw [sectionStores, List.mem_append] at hs
  obtain hs | hs := hs
  · obtain rfl | hs := List.mem_cons.mp hs
    · refine .inl ⟨Nat.le_refl _, ?_⟩
      simp only [Store.off, Store.content, nameField_length]
      omega
    · rw [List.mem_singleton.mp hs]
      refine .inl ⟨Nat.le_add_right _ 8, ?_⟩
      simp only [Store.off, Store.content, packAll_length, width]
      simp
  · split at hs
    · rename_i hdata
      rw [List.mem_singleton.mp hs]
      refine .inr ⟨hdata.1, rfl, ?_⟩
      simp only [Store.content]
      rw [Nat.min_eq_left hlen, List.take_length]
    · cases hs

theorem sectionStores_apart {lo hi index : Nat} {l : SectionLayout} (hl : Placed lo hi l)
    (hlo : SECTION_HEADER_OFFSET + index * 40 + 40 ≤ lo) :
    (sectionStores index l).Pairwise fun s t => Apart s.span t.span := by
  rw [sectionStores, List.pairwise_append]
  refine ⟨?_, ?_, ?_⟩
  · rw [List.pairwise_cons]
    refine ⟨?_, List.pairwise_singleton _ _⟩
    intro t ht
    rw [List.mem_singleton.mp ht]
    refine .inl ?_
    simp only [Store.span, Store.off, Store.content, nameField_length]
    exact Nat.le_refl _
  · split
    · exact List.pairwise_singleton _ _
    · exact .nil
  · intro s hs t ht
    split at ht
    · rename_i hdata
      obtain ⟨hptr, -, -⟩ := hl.pointer hdata.1
      rw [List.mem_singleton.mp ht]
      have hin : s.off + s.content.length ≤ SECTION_HEADER_OFFSET + index * 40 + 40 := by
        obtain rfl | hs := List.mem_cons.mp hs
        · simp only [Store.off, Store.content, nameField_length]
          omega
        · rw [List.mem_singleton.mp hs]
          simp only [Store.off, Store.content, packAll_length, width]
          simp
      exact .inl (hin.trans (hlo.trans hptr))
    · cases ht

/-- Of two sections, the first has the lower table entry and the lower bytes. -/
theorem layouts_ordered :
    (layouts sections).zipIdx.Pairwise fun p q => p.2 < q.2 ∧
      (p.1.raw_size ≠ 0 → q.1.raw_size ≠ 0 →
        p.1.raw_pointer + p.1.raw_size ≤ q.1.raw_pointer) := by
  have hordered : (layouts sections).Pairwise _ :=
    sectionLayouts_ordered (headersSize_dvd _) sections
  rw [List.pairwise_iff_getElem] at hordered ⊢
  intro i j hi hj hij
  rw [List.length_zipIdx] at hi hj
  rw [List.getElem_zipIdx, List.getElem_zipIdx]
  exact ⟨by simpa using hij, hordered i j hi hj hij⟩

/-- An entry of the table lies in the headers. -/
theorem entry_le_headersSize {p : SectionLayout × Nat} (hp : p ∈ (layouts sections).zipIdx) :
    SECTION_HEADER_OFFSET + p.2 * 40 + 40 ≤ headersSize sections.length := by
  have hget := List.mem_zipIdx_iff_getElem?.mp hp
  obtain ⟨hlt, -⟩ := List.getElem?_eq_some_iff.mp hget
  rw [layouts_length] at hlt
  have htable := table_le_headersSize sections.length
  omega

theorem mem_layouts {p : SectionLayout × Nat} (hp : p ∈ (layouts sections).zipIdx) :
    p.1 ∈ layouts sections := List.mem_of_getElem? (List.mem_zipIdx_iff_getElem?.mp hp)

theorem imageStores_apart :
    (imageStores e32 imageBase sections exportRva exportSize importRva importSize).Pairwise
      fun s t => Apart s.span t.span := by
  rw [imageStores, List.pairwise_append, List.pairwise_flatMap]
  refine ⟨headerStores_apart .., ⟨?_, ?_⟩, ?_⟩
  · intro p hp
    exact sectionStores_apart (layouts_placed sections p.1 (mem_layouts sections hp))
      (entry_le_headersSize sections hp)
  · refine (layouts_ordered sections).imp_of_mem ?_
    intro p q hp hq hpq s hs t ht
    have hpp := layouts_placed sections p.1 (mem_layouts sections hp)
    have hqp := layouts_placed sections q.1 (mem_layouts sections hq)
    have hpe := entry_le_headersSize sections hp
    have hqe := entry_le_headersSize sections hq
    have hplen := hpp.length_le
    obtain ⟨-, hs2⟩ | ⟨hs0, hs1, hs2⟩ := sectionStores_span hpp hs
    · obtain ⟨ht1, -⟩ | ⟨ht0, ht1, -⟩ := sectionStores_span hqp ht
      · exact .inl (by dsimp only [Store.span]; omega)
      · have hptr := (hqp.pointer ht0).1
        exact .inl (by dsimp only [Store.span]; omega)
    · obtain ⟨-, ht2⟩ | ⟨ht0, ht1, -⟩ := sectionStores_span hqp ht
      · have hptr := (hpp.pointer hs0).1
        exact .inr (by dsimp only [Store.span]; omega)
      · have hbytes := hpq.2 hs0 ht0
        exact .inl (by dsimp only [Store.span]; rw [hs2]; omega)
  · intro s hs t ht
    obtain ⟨p, hp, ht⟩ := List.mem_flatMap.mp ht
    have hin := headerStores_inside _ _ _ _ _ _ _ hs
    have hpp := layouts_placed sections p.1 (mem_layouts sections hp)
    have hpe := entry_le_headersSize sections hp
    obtain ⟨ht1, -⟩ | ⟨ht0, ht1, -⟩ := sectionStores_span hpp ht
    · exact .inl (by dsimp only [Store.span]; omega)
    · have hptr := (hpp.pointer ht0).1
      exact .inl (by dsimp only [Store.span]; omega)

theorem imageStores_inside {s : Store}
    (hs : s ∈ imageStores e32 imageBase sections exportRva exportSize importRva importSize) :
    s.off + s.content.length ≤ rawEnd (headersSize sections.length) sections := by
  have hend := le_rawEnd (headersSize sections.length) sections
  have htable := table_le_headersSize sections.length
  rw [imageStores, List.mem_append] at hs
  obtain hs | hs := hs
  · have hin := headerStores_inside _ _ _ _ _ _ _ hs
    omega
  · obtain ⟨p, hp, hs⟩ := List.mem_flatMap.mp hs
    have hpp := layouts_placed sections p.1 (mem_layouts sections hp)
    have hpe := entry_le_headersSize sections hp
    obtain ⟨-, hs2⟩ | ⟨hs0, hs1, hs2⟩ := sectionStores_span hpp hs
    · omega
    · have hptr := (hpp.pointer hs0).2.1
      have hlen := hpp.length_le
      rw [hs2]
      omega

end Write

def padded (alignment : Nat) (data : List Byte) : List Byte :=
  data ++ List.replicate ((alignment - data.length % alignment) % alignment) 0

def SectionLayout.view (l : SectionLayout) : SectionView where
  name_field := nameField l.image_section.name
  rva := l.image_section.rva
  virtual_size := l.image_section.virtual_size
  characteristics := l.image_section.characteristics
  raw_pointer := l.raw_pointer
  raw_size := l.raw_size
  data := padded PE_FILE_ALIGNMENT l.image_section.data

section Read
variable {e32 : E32Rom} {imageBase : Nat} {sections : List PEImageSection}
  {exportRva exportSize importRva importSize : Nat} {pe : List Byte}

theorem slice_replicate {o n size : Nat} (h : o + n ≤ size) :
    slice (List.replicate size (0 : Byte)) o n = List.replicate n 0 := by
  rw [slice, List.drop_replicate, List.take_replicate, Nat.min_eq_left (by omega)]

theorem mem_imageStores {p : SectionLayout × Nat} (hp : p ∈ (layouts sections).zipIdx)
    {s : Store} (hs : s ∈ sectionStores p.2 p.1) :
    s ∈ imageStores e32 imageBase sections exportRva exportSize importRva importSize :=
  List.mem_append_right _ (List.mem_flatMap.mpr ⟨p, hp, hs⟩)

def RawApart (l m : SectionLayout) : Prop :=
  l.raw_size ≠ 0 → m.raw_size ≠ 0 → Apart (l.raw_pointer, l.raw_size) (m.raw_pointer, m.raw_size)

theorem layouts_apart {p q : SectionLayout × Nat} (hp : p ∈ (layouts sections).zipIdx)
    (hq : q ∈ (layouts sections).zipIdx) (hne : p ≠ q) : RawApart p.1 q.1 := by
  have hsymm : Std.Symm fun p q : SectionLayout × Nat => RawApart p.1 q.1 :=
    ⟨fun _ _ h hq hp => Or.symm (h hp hq)⟩
  have hapart : (layouts sections).zipIdx.Pairwise fun p q => RawApart p.1 q.1 :=
    (layouts_ordered sections).imp fun h hp hq => .inl (h.2 hp hq)
  exact hapart.forall hp hq hne

/-- The zeros behind the bytes of a section are never written. -/
theorem padding_apart {p : SectionLayout × Nat} (hp : p ∈ (layouts sections).zipIdx)
    (hsize : p.1.raw_size ≠ 0) {s : Store}
    (hs : s ∈ imageStores e32 imageBase sections exportRva exportSize importRva importSize) :
    Apart (p.1.raw_pointer + p.1.image_section.data.length,
      p.1.raw_size - p.1.image_section.data.length) s.span := by
  have hpp := layouts_placed sections p.1 (mem_layouts sections hp)
  have hplen := hpp.length_le
  have hptr := (hpp.pointer hsize).1
  have htable := table_le_headersSize sections.length
  rw [imageStores, List.mem_append] at hs
  obtain hs | hs := hs
  · have hin := headerStores_inside _ _ _ _ _ _ _ hs
    exact .inr (by dsimp only [Store.span]; omega)
  · obtain ⟨q, hq, hs⟩ := List.mem_flatMap.mp hs
    have hqp := layouts_placed sections q.1 (mem_layouts sections hq)
    have hqe := entry_le_headersSize sections hq
    obtain ⟨-, hs2⟩ | ⟨hs0, hs1, hs2⟩ := sectionStores_span hqp hs
    · exact .inr (by dsimp only [Store.span]; omega)
    · have hqlen := hqp.length_le
      by_cases heq : p = q
      · subst heq
        exact .inr (by dsimp only [Store.span]; rw [hs2]; omega)
      · have hboth := layouts_apart hp hq heq hsize hs0
        obtain hboth | hboth := hboth
        · exact .inl (by dsimp only [Store.span] at hboth ⊢; omega)
        · exact .inr (by dsimp only [Store.span] at hboth ⊢; rw [hs2]; omega)

/-- The bytes of a section stand in the file, with zeros behind them. -/
theorem layout_data
    (h : Stored (imageStores e32 imageBase sections exportRva exportSize importRva importSize)
      (List.replicate (rawEnd (headersSize sections.length) sections) 0) pe)
    {p : SectionLayout × Nat} (hp : p ∈ (layouts sections).zipIdx) :
    slice pe p.1.raw_pointer p.1.raw_size = padded PE_FILE_ALIGNMENT p.1.image_section.data := by
  have hpp := layouts_placed sections p.1 (mem_layouts sections hp)
  have hlen := hpp.length_le
  have hpad := rawSize_eq p.1.image_section
  rw [← hpp.size] at hpad
  by_cases hzero : p.1.raw_size = 0
  · have hempty : p.1.image_section.data = [] := (rawSize_eq_zero _).mp (hpp.size ▸ hzero)
    rw [hzero, hempty]
    rfl
  · have hsome : p.1.image_section.data ≠ [] := fun hempty =>
      hzero (hpp.size.trans ((rawSize_eq_zero _).mpr hempty))
    have hbytes : Store.bytes p.1.raw_pointer (p.1.image_section.data.take
        (min p.1.image_section.data.length p.1.raw_size)) ∈ sectionStores p.2 p.1 := by
      rw [sectionStores, if_pos ⟨hzero, hsome⟩]
      exact List.mem_append_right _ (List.mem_singleton_self _)
    rw [Nat.min_eq_left hlen, List.take_length] at hbytes
    have hfirst : slice pe p.1.raw_pointer p.1.image_section.data.length =
        p.1.image_section.data := h.written _ (mem_imageStores hp hbytes)
    have hrest := h.others _ _ fun s hs => padding_apart hp hzero hs
    have hin := (hpp.pointer hzero).2.1
    rw [slice_replicate (by omega)] at hrest
    have hjoin := slice_append pe p.1.raw_pointer p.1.image_section.data.length
      (p.1.raw_size - p.1.image_section.data.length)
    rw [hfirst, hrest, Nat.add_sub_cancel' hlen] at hjoin
    rw [← hjoin, padded]
    congr 2
    omega

theorem readSection_layout
    (h : Stored (imageStores e32 imageBase sections exportRva exportSize importRva importSize)
      (List.replicate (rawEnd (headersSize sections.length) sections) 0) pe)
    (hfits : HeadersFit e32 imageBase sections exportRva exportSize importRva importSize)
    {p : SectionLayout × Nat} (hp : p ∈ (layouts sections).zipIdx) :
    readSection pe (SECTION_HEADER_OFFSET + p.2 * 40) = p.1.view := by
  have hname := h.written _ (mem_imageStores hp List.mem_cons_self)
  simp only [Store.off, Store.content, nameField_length] at hname
  have hfields : _ ∈ imageStores e32 imageBase sections exportRva exportSize importRva importSize :=
    mem_imageStores hp (List.mem_cons_of_mem _ List.mem_cons_self)
  have hvirtual : u32 pe (SECTION_HEADER_OFFSET + p.2 * 40 + 8) = _ := h.field hfits [] hfields
  have hrva : u32 pe (SECTION_HEADER_OFFSET + p.2 * 40 + 12) = _ := h.field hfits [_] hfields
  have hsize : u32 pe (SECTION_HEADER_OFFSET + p.2 * 40 + 16) = _ := h.field hfits [_, _] hfields
  have hpointer : u32 pe (SECTION_HEADER_OFFSET + p.2 * 40 + 20) = _ :=
    h.field hfits [_, _, _] hfields
  have hflags : u32 pe (SECTION_HEADER_OFFSET + p.2 * 40 + 36) = _ :=
    h.field hfits [(4, _), (4, _), (4, _), (4, _), (4, 0), (4, 0), (2, 0), (2, 0)] hfields
  have hdata := layout_data h hp
  simp only [readSection, SectionLayout.view, hname, hvirtual, hrva, hsize, hpointer, hflags,
    hdata]

/-- The reading of a PE file, from the layout of its sections. -/
theorem readPe_layout
    (h : Stored (imageStores e32 imageBase sections exportRva exportSize importRva importSize)
      (List.replicate (rawEnd (headersSize sections.length) sections) 0) pe)
    (hfits : HeadersFit e32 imageBase sections exportRva exportSize importRva importSize) :
    readPe pe = some {
      section_alignment := PE_SECTION_ALIGNMENT
      file_alignment := PE_FILE_ALIGNMENT
      size_of_image := sizeOfImage sections
      size_of_headers := headersSize sections.length
      sections := (layouts sections).map SectionLayout.view } := by
  have hmem (s : Store)
      (hs : s ∈ headerStores e32 imageBase sections exportRva exportSize importRva importSize) :
      s ∈ imageStores e32 imageBase sections exportRva exportSize importRva importSize :=
    List.mem_append_left _ hs
  simp only [headerStores, List.forall_mem_cons] at hmem
  obtain ⟨mMz, mLfanew, mPe, mCoff, mOptional, mAlign, -, -, mImage, mHeaders, -⟩ := hmem
  have hmz : slice pe 0 2 = [0x4D, 0x5A] := h.written _ mMz
  have hpe : slice pe 0x80 4 = [0x50, 0x45, 0, 0] := h.written _ mPe
  have hlfanew : u32 pe 0x3C = 0x80 := h.field hfits [] mLfanew
  have hcount : u16 pe 0x86 = sections.length := h.field hfits [_] mCoff
  have hoptional : u16 pe 0x94 = PE_OPTIONAL_HEADER_SIZE := h.field hfits [_, _, _, _, _] mCoff
  have hmagic : u16 pe 0x98 = 0x10B := h.field hfits [] mOptional
  have hsection : u32 pe 0xB8 = PE_SECTION_ALIGNMENT := h.field hfits [_] mAlign
  have hfile : u32 pe 0xBC = PE_FILE_ALIGNMENT := h.field hfits [_, _] mAlign
  have himage : u32 pe 0xD0 = sizeOfImage sections := h.field hfits [] mImage
  have hheaders : u32 pe 0xD4 = headersSize sections.length := h.field hfits [] mHeaders
  have hlen : SECTION_HEADER_OFFSET + sections.length * 40 ≤ pe.length := by
    rw [h.length, List.length_replicate]
    exact (table_le_headersSize _).trans (le_rawEnd _ _)
  have hsections : ((List.range sections.length).map fun i =>
      readSection pe (SECTION_HEADER_OFFSET + i * 40)) =
      (layouts sections).map SectionLayout.view := by
    apply List.ext_getElem
    · rw [List.length_map, List.length_map, List.length_range, layouts_length]
    · intro i hi hi'
      rw [List.length_map] at hi'
      have hzip : ((layouts sections)[i], i) ∈ (layouts sections).zipIdx :=
        List.mem_zipIdx_iff_getElem?.mpr (List.getElem?_eq_getElem hi')
      have hread := readSection_layout h hfits hzip
      dsimp only at hread
      rw [List.getElem_map, List.getElem_map, List.getElem_range, hread]
  have htable : 152 + PE_OPTIONAL_HEADER_SIZE = SECTION_HEADER_OFFSET := rfl
  simp only [readPe, hlfanew, Nat.reduceAdd, hcount, hoptional, hmz, hpe, hmagic, hsection, hfile,
    himage, hheaders, htable, hsections]
  rw [if_neg (not_not.mpr rfl), if_neg (not_not.mpr rfl), if_neg (not_not.mpr rfl),
    if_neg (not_lt.mpr hlen)]

structure Recovers (alignment : Nat) (s : PEImageSection) (r : SectionView) : Prop where
  name_field : r.name_field = s.name.take 8 ++ List.replicate (8 - (s.name.take 8).length) 0
  name : 0 ∉ s.name → r.name_field.takeWhile (· ≠ 0) = s.name.take 8
  rva : r.rva = s.rva
  virtual_size : r.virtual_size = s.virtual_size
  characteristics : r.characteristics = s.characteristics
  data : r.data = padded alignment s.data
  raw_size : r.raw_size = r.data.length

structure ReadsBack (sections : List PEImageSection) (pe : List Byte) (v : PeView) : Prop where
  file_alignment : v.file_alignment = PE_FILE_ALIGNMENT
  section_alignment : v.section_alignment = PE_SECTION_ALIGNMENT
  recovered : List.Forall₂ (Recovers v.file_alignment) sections v.sections
  ranges : ∀ r ∈ v.sections, r.data ≠ [] → v.file_alignment ∣ r.raw_pointer ∧
    v.file_alignment ∣ r.raw_size ∧ v.size_of_headers ≤ r.raw_pointer ∧
    r.raw_pointer + r.raw_size ≤ pe.length
  apart : v.sections.Pairwise fun r t => r.data ≠ [] → t.data ≠ [] →
    Apart (r.raw_pointer, r.raw_size) (t.raw_pointer, t.raw_size)
  image : v.section_alignment ∣ v.size_of_image ∧
    ∀ s ∈ sections, s.rva + max s.virtual_size s.data.length ≤ v.size_of_image

theorem view_recovers {lo hi : Nat} {l : SectionLayout} (hl : Placed lo hi l) :
    Recovers PE_FILE_ALIGNMENT l.image_section l.view := by
  have hfield : nameField l.image_section.name = l.image_section.name.take 8 ++
      List.replicate (8 - (l.image_section.name.take 8).length) 0 := by
    rw [nameField, List.length_take]
    congr 2
    omega
  refine ⟨hfield, fun hplain => ?_, rfl, rfl, rfl, rfl, ?_⟩
  · have hkeep : ∀ x ∈ l.image_section.name.take 8, (x ≠ 0 : Bool) = true := by
      intro x hx
      have hne : x ≠ 0 := fun h0 => hplain (h0 ▸ List.mem_of_mem_take hx)
      simpa using hne
    have hzeros (n : Nat) : (List.replicate n (0 : Byte)).takeWhile (· ≠ 0) = [] := by
      cases n <;> rfl
    change (nameField l.image_section.name).takeWhile (· ≠ 0) = _
    rw [nameField, List.takeWhile_append_of_pos hkeep, hzeros, List.append_nil]
  · change l.raw_size = (padded PE_FILE_ALIGNMENT l.image_section.data).length
    rw [padded, List.length_append, List.length_replicate, hl.size, rawSize_eq]

theorem view_data_ne_nil {lo hi : Nat} {l : SectionLayout} (hl : Placed lo hi l)
    (h : l.view.data ≠ []) : l.raw_size ≠ 0 := by
  intro hzero
  have hlen := (view_recovers hl).raw_size
  exact h (List.eq_nil_of_length_eq_zero (hlen.symm.trans hzero))

theorem readsBack_layout (hlen : pe.length = rawEnd (headersSize sections.length) sections) :
    ReadsBack sections pe {
      section_alignment := PE_SECTION_ALIGNMENT
      file_alignment := PE_FILE_ALIGNMENT
      size_of_image := sizeOfImage sections
      size_of_headers := headersSize sections.length
      sections := (layouts sections).map SectionLayout.view } := by
  have hplaced := layouts_placed sections
  refine ⟨rfl, rfl, ?_, ?_, ?_, dvd_alignUp _ 12, ?_⟩
  · have hmap : (layouts sections).map SectionLayout.image_section = sections :=
      sectionLayouts_sections _ sections
    have hall : List.Forall₂ (Recovers PE_FILE_ALIGNMENT)
        ((layouts sections).map SectionLayout.image_section)
        ((layouts sections).map SectionLayout.view) := by
      rw [List.forall₂_map_left_iff, List.forall₂_map_right_iff, List.forall₂_same]
      exact fun l hl => view_recovers (hplaced l hl)
    rwa [hmap] at hall
  · intro r hr hdata
    obtain ⟨l, hl, rfl⟩ := List.mem_map.mp hr
    have hsize := view_data_ne_nil (hplaced l hl) hdata
    obtain ⟨hlo, hhi, hdvd⟩ := (hplaced l hl).pointer hsize
    refine ⟨hdvd, ?_, hlo, hlen ▸ hhi⟩
    change PE_FILE_ALIGNMENT ∣ l.raw_size
    rw [(hplaced l hl).size]
    exact rawSize_dvd _
  · rw [List.pairwise_map]
    refine (sectionLayouts_ordered (headersSize_dvd _) sections).imp_of_mem ?_
    intro l m hl hm hordered hldata hmdata
    exact .inl (hordered (view_data_ne_nil (hplaced l hl) hldata)
      (view_data_ne_nil (hplaced m hm) hmdata))
  · intro s hs
    have hmem : s.rva + sectionSpanLike s.virtual_size s.data.length ∈
        sections.map fun s => s.rva + sectionSpanLike s.virtual_size s.data.length :=
      List.mem_map_of_mem hs
    have hmax := @le_foldl_max _ 0 _ (.inr hmem)
    have hspan := le_sectionSpanLike s
    exact (Nat.add_le_add_left hspan _).trans (hmax.trans (le_alignUp _ 12))

theorem buildPeImage_readsBack (hsome : sections ≠ [])
    (hfits : HeadersFit e32 imageBase sections exportRva exportSize importRva importSize) :
    ∃ pe v, buildPeImageFromSections e32 imageBase sections exportRva exportSize importRva
        importSize = .ok pe ∧ readPe pe = some v ∧ ReadsBack sections pe v := by
  obtain ⟨pe, hpe, hstored⟩ := storeAll_ok
    (b := List.replicate (rawEnd (headersSize sections.length) sections) 0) hfits
    (fun s hs => by
      rw [List.length_replicate]
      exact imageStores_inside _ _ _ _ _ _ _ hs)
    (imageStores_apart _ _ _ _ _ _ _)
  refine ⟨pe, _, ?_, readPe_layout hstored hfits, readsBack_layout ?_⟩
  · rw [buildPeImageFromSections, if_neg hsome, hpe]
  · rw [hstored.length, List.length_replicate]

end Read

/-- A file written from a non-empty list of sections that fits its headers reads back as the list;
and a list taken from an accepted module is non-empty, sorted, and keeps its exports apart. -/
theorem pe_rebuild_exact :
    (∀ (e32 : E32Rom) (imageBase : Nat) (sections : List PEImageSection)
      (exportRva exportSize importRva importSize : Nat), sections ≠ [] →
      HeadersFit e32 imageBase sections exportRva exportSize importRva importSize →
      ∃ pe v, buildPeImageFromSections e32 imageBase sections exportRva exportSize importRva
        importSize = .ok pe ∧ readPe pe = some v ∧ ReadsBack sections pe v) ∧
    ∀ (raw : List Byte) (offset : Nat) (o32Offset : Option Nat) (e32 : E32Rom),
      parseE32Rom raw offset o32Offset = some e32 →
      ∀ (decompress : List Byte → Nat → Except String (Option (List Byte)))
        (image : ECECImage) (module : ROMModuleEntry) (moduleName : List Byte)
        (out : DirectSections),
        buildDirectPeSections decompress raw image module e32 moduleName = .ok out →
        out.sections ≠ [] ∧ out.sections.Pairwise (·.rva ≤ ·.rva) ∧
          out.sections.Pairwise EdataApart :=
  ⟨fun _ _ _ _ _ _ _ hsome hfits => buildPeImage_readsBack hsome hfits,
    fun _ _ _ _ hparse _ _ _ _ _ hbuild => buildDirectPeSections_apart hparse hbuild⟩

def sampleSections : List PEImageSection :=
  [{ name := [0x2E, 0x74, 0x65, 0x78, 0x74], rva := 0x1000, virtual_size := 0x20,
      characteristics := 0x60000020, data := [1, 2, 3] },
    { name := [0x2E, 0x62, 0x73, 0x73], rva := 0x2000, virtual_size := 0x100,
      characteristics := 0xC0000080, data := [] }]

def sampleModuleRom : List Byte :=
  pack 4 0x10002000 ++ pack 4 7 ++
    packAll ([(2, 1), (2, 0x2102), (4, 0x2000), (4, 0x10000000), (2, 5), (2, 0), (4, 0x10000),
      (4, 0x3000), (4, 0), (4, 0), (4, 0x40000000), (4, 0x1000), (4, 0x80)] ++
      List.replicate 16 (4, 0) ++ [(2, 9), (2, 0)]) ++
    packAll [(4, 0x1000), (4, 0x1000), (4, 8), (4, 0), (4, 0), (4, 0x60000020)] ++ sampleRom

def sampleChain : ECECImage where
  load_base := 0
  logical_size := 0x1000
  span_size := 0x1000
  logical_pages_per_raw_group := 4
  metadata_page_index := 4
  group_pos := by decide
  index_le := by decide

def sampleBuild (e32 : E32Rom) : Except String DirectSections :=
  buildDirectPeSections (fun _ _ => .ok none) sampleModuleRom sampleChain ⟨0x80010000⟩ e32
    [0x6D, 0x2E, 0x64, 0x6C, 0x6C]

theorem sampleBuild_ok : ((parseE32Rom sampleModuleRom 8 none).bind fun e32 =>
    (sampleBuild e32).toOption).map (fun out => (out.export_rva, out.export_size)) =
      some (0x3000, 0x80) := by
  decide +kernel

theorem pe_rebuild_exact_sample :
    (∃ pe v, buildPeImageFromSections sampleModule 0x10000000 sampleSections 0 0 0 0 = .ok pe ∧
      readPe pe = some v ∧ ReadsBack sampleSections pe v) ∧
    ∃ e32 out, parseE32Rom sampleModuleRom 8 none = some e32 ∧ sampleBuild e32 = .ok out ∧
      out.export_size = 0x80 ∧ out.sections ≠ [] ∧ out.sections.Pairwise (·.rva ≤ ·.rva) ∧
        out.sections.Pairwise EdataApart := by
  refine ⟨pe_rebuild_exact.1 _ _ _ _ _ _ _ (by decide)
    (by unfold HeadersFit; decide +kernel), ?_⟩
  obtain ⟨out, hout, hplace⟩ := Option.map_eq_some_iff.mp sampleBuild_ok
  obtain ⟨e32, hparse, hbuild⟩ := Option.bind_eq_some_iff.mp hout
  have hok : sampleBuild e32 = .ok out := by
    cases hres : sampleBuild e32 with
    | error e =>
      rw [hres] at hbuild
      cases hbuild
    | ok found =>
      rw [hres] at hbuild
      cases hbuild
      rfl
  exact ⟨e32, out, hparse, hok, congrArg Prod.snd hplace,
    pe_rebuild_exact.2 _ _ _ _ hparse _ _ _ _ _ hok⟩

end AipcOs.PeImage
