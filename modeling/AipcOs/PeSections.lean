import AipcOs.RomExport

/-! The sections of a PE file as they are taken from a ROM module, with an export section behind
all others. -/
namespace AipcOs.PeSections
open ByteMemory OffsetTable StructBytes Ecec RomModule

def clearBits (value mask : Nat) : Nat := value - (value &&& mask)

def alignUp (value alignment : Nat) : Nat := clearBits (value + alignment - 1) (alignment - 1)

structure PEImageSection where
  name : List Byte
  rva : Nat
  virtual_size : Nat
  characteristics : Nat
  data : List Byte
  deriving DecidableEq

structure ROMModuleEntry where
  load_pointer : Nat

def decimal (n : Nat) : List Byte :=
  (Nat.toDigits 10 n).map fun c => BitVec.ofNat 8 c.toNat

def sectionName (index : Nat) (s : Section) : List Byte :=
  if s.flags &&& 0x20 ≠ 0 then [0x2E, 0x74, 0x65, 0x78, 0x74]
  else if s.flags &&& 0x80 ≠ 0 then [0x2E, 0x62, 0x73, 0x73]
  else if s.flags &&& 0x40 ≠ 0 then
    if s.flags &&& 0x80000000 ≠ 0 then [0x2E, 0x64, 0x61, 0x74, 0x61]
    else [0x2E, 0x72, 0x64, 0x61, 0x74, 0x61]
  else [0x2E, 0x73, 0x65, 0x63] ++ decimal index

def EDATA : List Byte := [0x2E, 0x65, 0x64, 0x61, 0x74, 0x61]

/-- A section without bytes is left out if another one at its RVA has some. -/
def shouldEmitPeSection (s : Section) (sections : List Section) : Bool :=
  if s.physical_size ≠ 0 then true
  else !sections.any fun other =>
    other.index ≠ s.index && other.physical_size > 0 && other.rva = s.rva

def span (s : PEImageSection) : Nat := max s.virtual_size s.data.length

def sectionSpanLike (virtualSize dataSize : Nat) : Nat :=
  alignUp (max virtualSize dataSize) PE_SECTION_ALIGNMENT

def peSectionDataAt (sections : List PEImageSection) (rva size : Nat) : Option (List Byte) :=
  match sections.find? fun s => s.rva ≤ rva && rva + size ≤ s.rva + span s with
  | some s =>
    if rva - s.rva + size ≤ s.data.length then some (slice s.data (rva - s.rva) size) else none
  | none => none

def peCStringAt (sections : List PEImageSection) (rva : Nat) : Option (List Byte) :=
  match sections.find? fun s => s.rva ≤ rva && rva < s.rva + span s with
  | some s => decodeAsciiCString s.data (rva - s.rva)
  | none => none

def DLL : List Byte := [0x2E, 0x64, 0x6C, 0x6C]

/-- The descriptors from `index` on, `valid` of them seen and `left` still to look at. -/
def importDescriptors (sections : List PEImageSection) (importRva virtualSize : Nat) :
    Nat → Nat → Nat → Bool
  | _, _, 0 => false
  | index, valid, left + 1 =>
    match peSectionDataAt sections (importRva + index * 20) 20 with
    | none => false
    | some descriptor =>
      let originalFirstThunk := u32 descriptor 0
      let nameRva := u32 descriptor 12
      let firstThunk := u32 descriptor 16
      if originalFirstThunk = 0 ∧ nameRva = 0 ∧ firstThunk = 0 then valid > 0
      else
        match peCStringAt sections nameRva with
        | none => false
        | some name =>
          let thunkRva := if originalFirstThunk ≠ 0 then originalFirstThunk else firstThunk
          if !DLL.isSuffixOf (lower name) then false
          else if thunkRva = 0 ∨ thunkRva ≥ virtualSize ∨ firstThunk = 0 ∨
              firstThunk ≥ virtualSize then false
          else if (peSectionDataAt sections thunkRva 4).isNone then false
          else if (peSectionDataAt sections firstThunk 4).isNone then false
          else importDescriptors sections importRva virtualSize (index + 1) (valid + 1) left

def isValidImportDirectory (sections : List PEImageSection)
    (importRva importSize virtualSize : Nat) : Bool :=
  if importRva = 0 ∨ importSize < 20 ∨ importRva ≥ virtualSize then false
  else importDescriptors sections importRva virtualSize 0 0 (min (importSize / 20) 64)

/-- Every aligned word that points into the old image is moved to the new one, as
shift_export_rva moves an RVA. -/
def relocateInImagePointers (data : List Byte) (oldBase newBase virtualSize : Nat) :
    Except String (List Byte) :=
  if oldBase = newBase ∨ data.length < 4 then .ok data
  else (List.range (data.length / 4)).foldlM
    (fun blob i => shiftExportRva blob (i * 4) oldBase newBase virtualSize) data

structure DirectSections where
  sections : List PEImageSection
  found_export : Option ROMExportDirectory
  export_rva : Nat
  export_size : Nat
  import_rva : Nat
  import_size : Nat

theorem alignUp_two_pow (v k : Nat) : alignUp v (2 ^ k) = (v + 2 ^ k - 1) / 2 ^ k * 2 ^ k := by
  rw [alignUp, clearBits, Nat.and_two_pow_sub_one_eq_mod]
  have hdiv := Nat.div_add_mod (v + 2 ^ k - 1) (2 ^ k)
  rw [Nat.mul_comm] at hdiv
  omega

theorem dvd_alignUp (v k : Nat) : 2 ^ k ∣ alignUp v (2 ^ k) := by
  rw [alignUp_two_pow]
  exact Nat.dvd_mul_left _ _

theorem le_alignUp (v k : Nat) : v ≤ alignUp v (2 ^ k) := by
  rw [alignUp_two_pow]
  have hdiv := Nat.div_add_mod (v + 2 ^ k - 1) (2 ^ k)
  have hmod := Nat.mod_lt (v + 2 ^ k - 1) (Nat.two_pow_pos k)
  rw [Nat.mul_comm] at hdiv
  omega

theorem le_sectionSpanLike (s : PEImageSection) :
    span s ≤ sectionSpanLike s.virtual_size s.data.length := le_alignUp _ 12

section Build
variable (decompress : List Byte → Nat → Except String (Option (List Byte)))
  (raw : List Byte) (image : ECECImage) (module : ROMModuleEntry) (e32 : E32Rom)

def directSection (index : Nat) (s : Section) : Except String PEImageSection := do
  let (data, decompressed) ← readModuleSectionPayload decompress raw image s.toO32RomSection
  let data ← relocateInImagePointers data e32.image_base module.load_pointer e32.virtual_size
  return {
    name := sectionName index s
    rva := s.rva
    virtual_size := max s.virtual_size data.length
    characteristics := if decompressed then clearBits s.flags CECOMPRESS_FLAG else s.flags
    data }

def directSections : Except String (List PEImageSection) :=
  (e32.sections.zipIdx.filter fun p => shouldEmitPeSection p.1 e32.sections).mapM fun p =>
    directSection decompress raw image module e32 p.2 p.1

def exportSectionRva (e32 : E32Rom) (sections : List PEImageSection) : Nat :=
  alignUp ((sections.map fun s => s.rva + sectionSpanLike s.virtual_size s.data.length).foldl max
    e32.virtual_size) PE_SECTION_ALIGNMENT

def withExports (sections : List PEImageSection) :
    Option ROMExportDirectory → Except String (List PEImageSection × Nat × Nat)
  | none => .ok (sections, 0, 0)
  | some ex =>
    if ex.size = 0 then .ok (sections, 0, 0)
    else if sections = [] then .error "'int' object is not iterable"
    else do
      let rva := exportSectionRva e32 sections
      let data ← relocatedExportBlob raw e32 ex rva
      let edata : PEImageSection := {
        name := EDATA
        rva
        virtual_size := data.length
        characteristics := 0x40000040
        data }
      return (if data ≠ [] then sections ++ [edata] else sections, rva, data.length)

def buildDirectPeSections (moduleName : List Byte) : Except String DirectSections := do
  let found := if e32.export_rva ≠ 0 then findModuleExport raw moduleName e32 else none
  let sections ← directSections decompress raw image module e32
  let (sections, exportRva, exportSize) ← withExports raw e32 sections found
  let valid := isValidImportDirectory sections (e32.unit 1).1 (e32.unit 1).2 e32.virtual_size
  return {
    sections := sections.mergeSort fun s t => s.rva ≤ t.rva
    found_export := found
    export_rva := exportRva
    export_size := exportSize
    import_rva := if valid then (e32.unit 1).1 else 0
    import_size := if valid then (e32.unit 1).2 else 0 }

variable {decompress raw image module e32}

theorem mapM_ok {α β : Type} {f : α → Except String β} {xs : List α} {ys : List β}
    (h : xs.mapM f = .ok ys) : List.Forall₂ (fun x y => f x = .ok y) xs ys := by
  induction xs generalizing ys with
  | nil =>
    cases h
    exact .nil
  | cons x xs ih =>
    rw [List.mapM_cons] at h
    cases hx : f x with
    | error e =>
      rw [hx] at h
      cases h
    | ok y =>
      cases hxs : xs.mapM f with
      | error e =>
        rw [hx, hxs] at h
        cases h
      | ok zs =>
        rw [hx, hxs] at h
        cases h
        exact .cons hx (ih hxs)

theorem parseE32Rom_sections {o32Offset : Option Nat} {offset : Nat}
    (h : parseE32Rom raw offset o32Offset = some e32) : e32.sections ≠ [] := by
  unfold parseE32Rom at h
  dsimp only at h
  split at h
  · cases h
  split at h
  · cases h
  rename_i hcount
  iterate 6
    split at h
    · cases h
  obtain ⟨sections, hsections, rfl⟩ := Option.map_eq_some_iff.mp h
  rw [mapM_eq_some_iff] at hsections
  have hlen := congrArg List.length hsections
  rw [List.length_map, List.length_map, List.length_range] at hlen
  have hpos : 0 < sections.length := by omega
  exact List.ne_nil_of_length_pos hpos

theorem emitted_nonempty {sections : List Section} (h : sections ≠ []) :
    (sections.zipIdx.filter fun p => shouldEmitPeSection p.1 sections) ≠ [] := by
  have emitted (s : Section) (hs : s ∈ sections) (hemit : shouldEmitPeSection s sections = true) :
      (sections.zipIdx.filter fun p => shouldEmitPeSection p.1 sections) ≠ [] := by
    obtain ⟨i, hi, rfl⟩ := List.getElem_of_mem hs
    have hzip : (sections[i], i) ∈ sections.zipIdx :=
      List.mem_zipIdx_iff_getElem?.mpr (List.getElem?_eq_getElem hi)
    exact List.ne_nil_of_mem (List.mem_filter.mpr ⟨hzip, hemit⟩)
  by_cases hsome : ∃ s ∈ sections, s.physical_size ≠ 0
  · obtain ⟨s, hs, hsize⟩ := hsome
    exact emitted s hs (if_pos hsize)
  · obtain ⟨s, hs⟩ := List.exists_mem_of_ne_nil sections h
    refine emitted s hs ?_
    have hzero : ∀ t ∈ sections, t.physical_size = 0 := by simpa using hsome
    have hother : (sections.any fun other =>
        other.index ≠ s.index && other.physical_size > 0 && other.rva = s.rva) = false := by
      rw [List.any_eq_false]
      intro t ht
      simp [hzero t ht]
    rw [shouldEmitPeSection, if_neg (not_not.mpr (hzero s hs)), hother]
    rfl

theorem sectionName_ne_edata (index : Nat) (s : Section) : sectionName index s ≠ EDATA := by
  unfold sectionName
  split
  · decide
  split
  · decide
  split
  · split <;> decide
  · intro h
    have hsecond := congrArg (fun l => l[1]?) h
    cases hsecond

theorem directSection_name {index : Nat} {s : Section} {t : PEImageSection}
    (h : directSection decompress raw image module e32 index s = .ok t) :
    t.name = sectionName index s := by
  unfold directSection at h
  cases hread : readModuleSectionPayload decompress raw image s.toO32RomSection with
  | error e =>
    rw [hread] at h
    cases h
  | ok p =>
    cases hmove : relocateInImagePointers p.1 e32.image_base module.load_pointer
        e32.virtual_size with
    | error e =>
      simp only [hread, hmove, bind, Except.bind] at h
      cases h
    | ok data =>
      simp only [hread, hmove, bind, Except.bind] at h
      cases h
      rfl

/-- The sections taken from the module: at least one, and none with the name of the exports. -/
theorem directSections_plain {o32Offset : Option Nat} {offset : Nat}
    {sections : List PEImageSection} (hparse : parseE32Rom raw offset o32Offset = some e32)
    (h : directSections decompress raw image module e32 = .ok sections) :
    sections ≠ [] ∧ ∀ s ∈ sections, s.name ≠ EDATA := by
  have hall := mapM_ok h
  constructor
  · have hsome := emitted_nonempty (parseE32Rom_sections hparse)
    have hlen := hall.length_eq
    intro hnil
    rw [hnil] at hlen
    exact hsome (List.eq_nil_of_length_eq_zero hlen)
  · intro s hs hname
    obtain ⟨i, hi, rfl⟩ := List.getElem_of_mem hs
    have hat := (List.forall₂_iff_get.mp hall).2 i (hall.length_eq ▸ hi) hi
    exact sectionName_ne_edata _ _ ((directSection_name hat).symm.trans hname)

/-- Every section ends in front of the exports. -/
theorem span_le_exportSectionRva {sections : List PEImageSection} {s : PEImageSection}
    (hs : s ∈ sections) : s.rva + span s ≤ exportSectionRva e32 sections := by
  have hmem : s.rva + sectionSpanLike s.virtual_size s.data.length ∈
      sections.map fun s => s.rva + sectionSpanLike s.virtual_size s.data.length :=
    List.mem_map_of_mem hs
  have hmax := @le_foldl_max _ e32.virtual_size _ (.inr hmem)
  have hspan := le_sectionSpanLike s
  have hup := le_alignUp ((sections.map fun s => s.rva + sectionSpanLike s.virtual_size
    s.data.length).foldl max e32.virtual_size) 12
  exact (Nat.add_le_add_left hspan _).trans (hmax.trans hup)

def EdataApart (s t : PEImageSection) : Prop :=
  s.name = EDATA ∨ t.name = EDATA → Apart (s.rva, span s) (t.rva, span t)

theorem EdataApart.symm {s t : PEImageSection} (h : EdataApart s t) : EdataApart t s := by
  intro hname
  obtain h | h := h hname.symm
  · exact .inr h
  · exact .inl h

theorem withExports_ok {sections out : List PEImageSection}
    {found : Option ROMExportDirectory} {place : Nat × Nat}
    (h : withExports raw e32 sections found = .ok (out, place)) :
    out = sections ∨ ∃ s : PEImageSection, s.rva = exportSectionRva e32 sections ∧
      out = sections ++ [s] := by
  cases found with
  | none =>
    cases h
    exact .inl rfl
  | some ex =>
    rw [withExports] at h
    split at h
    · cases h
      exact .inl rfl
    split at h
    · cases h
    cases hblob : relocatedExportBlob raw e32 ex (exportSectionRva e32 sections) with
    | error e =>
      simp only [hblob, bind, Except.bind] at h
      cases h
    | ok data =>
      simp only [hblob, bind, Except.bind] at h
      cases h
      by_cases hdata : data = []
      · rw [if_neg (not_not.mpr hdata)]
        exact .inl rfl
      · rw [if_pos hdata]
        exact .inr ⟨_, rfl, rfl⟩

theorem buildDirectPeSections_sections {name : List Byte} {out : DirectSections}
    (h : buildDirectPeSections decompress raw image module e32 name = .ok out) :
    ∃ sections all, directSections decompress raw image module e32 = .ok sections ∧
      (all = sections ∨ ∃ s : PEImageSection, s.rva = exportSectionRva e32 sections ∧
        all = sections ++ [s]) ∧
      out.sections = all.mergeSort fun s t => s.rva ≤ t.rva := by
  unfold buildDirectPeSections at h
  cases hsections : directSections decompress raw image module e32 with
  | error e =>
    rw [hsections] at h
    cases h
  | ok sections =>
    simp only [hsections, bind, Except.bind] at h
    split at h
    · cases h
    · rename_i place hplace
      cases h
      exact ⟨sections, place.1, rfl, withExports_ok hplace, rfl⟩

/-- The list is never empty and sorted, and its exports share no address with another section. -/
theorem buildDirectPeSections_apart {o32Offset : Option Nat} {offset : Nat} {name : List Byte}
    {out : DirectSections} (hparse : parseE32Rom raw offset o32Offset = some e32)
    (h : buildDirectPeSections decompress raw image module e32 name = .ok out) :
    out.sections ≠ [] ∧ out.sections.Pairwise (·.rva ≤ ·.rva) ∧
      out.sections.Pairwise EdataApart := by
  obtain ⟨sections, all, hsections, hall, hout⟩ := buildDirectPeSections_sections h
  obtain ⟨hnonempty, hplain⟩ := directSections_plain hparse hsections
  have hfree : sections.Pairwise EdataApart := by
    rw [List.pairwise_iff_forall_sublist]
    intro s t hst
    have hs := hst.subset List.mem_cons_self
    have ht := hst.subset (List.mem_cons_of_mem s List.mem_cons_self)
    intro hor
    obtain hname | hname := hor
    · exact absurd hname (hplain s hs)
    · exact absurd hname (hplain t ht)
  have hset : all ≠ [] ∧ all.Pairwise EdataApart := by
    obtain rfl | ⟨edata, hrva, rfl⟩ := hall
    · exact ⟨hnonempty, hfree⟩
    · refine ⟨by simp, List.pairwise_append.mpr ⟨hfree, List.pairwise_singleton _ _, ?_⟩⟩
      intro s hs t ht _
      rw [List.mem_singleton.mp ht]
      have hend : s.rva + span s ≤ exportSectionRva e32 sections := span_le_exportSectionRva hs
      exact .inl (hrva ▸ hend)
  have hperm : out.sections.Perm all := hout ▸ List.mergeSort_perm all _
  refine ⟨fun hnil => ?_, ?_, hperm.symm.pairwise hset.2 EdataApart.symm⟩
  · rw [hnil] at hperm
    exact hset.1 hperm.symm.eq_nil
  · have htrans (s t u : PEImageSection) : decide (s.rva ≤ t.rva) → decide (t.rva ≤ u.rva) →
        decide (s.rva ≤ u.rva) := by
      simp only [decide_eq_true_eq]
      exact Nat.le_trans
    have htotal (s t : PEImageSection) : decide (s.rva ≤ t.rva) || decide (t.rva ≤ s.rva) := by
      simp only [Bool.or_eq_true, decide_eq_true_eq]
      exact Nat.le_total _ _
    have hsorted := List.pairwise_mergeSort htrans htotal all
    rw [← hout] at hsorted
    exact hsorted.imp of_decide_eq_true

end Build

end AipcOs.PeSections
