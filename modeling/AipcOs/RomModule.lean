import AipcOs.Ecec
import AipcOs.StructBytes

/-! The module headers of a ROM image (e32_rom, o32_rom) and the export directories found by their
module name. -/
namespace AipcOs.RomModule
open ByteMemory StructBytes Ecec

def E32_ROM_SIZE : Nat := 0x70
def O32_ROM_SIZE : Nat := 0x18
def PE_SECTION_ALIGNMENT : Nat := 0x1000
def MAX_E32_OBJECTS : Nat := 16
def MAX_EXPORT_NAMES : Nat := 512
def EXPORT_SCAN_WINDOW : Nat := 0x2000

structure Section extends O32RomSection where
  rva : Nat
  real_address : Nat

structure E32Rom where
  offset : Nat
  object_count : Nat
  image_flags : Nat
  entry_rva : Nat
  image_base : Nat
  subsystem_major : Nat
  subsystem_minor : Nat
  stack_max : Nat
  virtual_size : Nat
  sect14_rva : Nat
  sect14_size : Nat
  timestamp : Nat
  units : List (Nat × Nat)
  subsystem : Nat
  sections : List Section

def E32Rom.unit (e : E32Rom) (i : Nat) : Nat × Nat := e.units.getD i (0, 0)

def E32Rom.export_rva (e : E32Rom) : Nat := (e.unit 0).1

def E32Rom.export_size (e : E32Rom) : Nat := (e.unit 0).2

def parseO32 (raw : List Byte) (sectionOffset index : Nat) : Option Section :=
  let start := sectionOffset + index * O32_ROM_SIZE
  let virtualSize := u32 raw start
  let rva := u32 raw (start + 4)
  let physicalSize := u32 raw (start + 8)
  let flags := u32 raw (start + 20)
  if virtualSize > 0x02000000 ∨ physicalSize > 0x02000000 then none
  else if rva % PE_SECTION_ALIGNMENT ≠ 0 then none
  else if flags = 0 then none
  else some {
    index
    virtual_size := virtualSize
    rva
    physical_size := physicalSize
    data_pointer := u32 raw (start + 12)
    real_address := u32 raw (start + 16)
    flags }

def parseE32Rom (raw : List Byte) (offset : Nat) (o32Offset : Option Nat) : Option E32Rom :=
  if raw.length < offset + E32_ROM_SIZE then none
  else
    let objectCount := u16 raw offset
    let entryRva := u32 raw (offset + 0x04)
    let subsystemMajor := u16 raw (offset + 0x0C)
    let stackMax := u32 raw (offset + 0x10)
    let virtualSize := u32 raw (offset + 0x14)
    let units := (List.range 9).map fun i =>
      (u32 raw (offset + 0x24 + i * 8), u32 raw (offset + 0x24 + i * 8 + 4))
    let exportRva := (units.getD 0 (0, 0)).1
    let sectionOffset := o32Offset.getD (offset + E32_ROM_SIZE)
    if ¬ (1 ≤ objectCount ∧ objectCount ≤ MAX_E32_OBJECTS) then none
    else if subsystemMajor ∉ [3, 4, 5, 6] then none
    else if stackMax ∉ [0, 0x10000, 0x20000, 0x40000, 0x100000] then none
    else if ¬ (0x1000 ≤ virtualSize ∧ virtualSize ≤ 0x02000000) then none
    else if entryRva ≥ virtualSize + 0x100000 then none
    else if exportRva ≠ 0 ∧ exportRva ≥ virtualSize then none
    else if raw.length < sectionOffset + objectCount * O32_ROM_SIZE then none
    else
      ((List.range objectCount).mapM (parseO32 raw sectionOffset)).map fun sections => {
        offset
        object_count := objectCount
        image_flags := u16 raw (offset + 2)
        entry_rva := entryRva
        image_base := u32 raw (offset + 0x08)
        subsystem_major := subsystemMajor
        subsystem_minor := u16 raw (offset + 0x0E)
        stack_max := stackMax
        virtual_size := virtualSize
        sect14_rva := u32 raw (offset + 0x18)
        sect14_size := u32 raw (offset + 0x1C)
        timestamp := u32 raw (offset + 0x20)
        units
        subsystem := u16 raw (offset + 0x6C)
        sections }

structure ROMExportDirectory where
  raw_offset : Nat
  rva : Nat
  size : Nat
  timestamp : Nat
  name : List Byte
  function_rvas : List Nat
  export_names : List (List Byte)
  deriving DecidableEq

structure ExportHeader where
  characteristics : Nat
  timestamp : Nat
  major_version : Nat
  minor_version : Nat
  name_rva : Nat
  ordinal_base : Nat
  function_count : Nat
  name_count : Nat
  function_table_rva : Nat
  name_table_rva : Nat
  ordinal_table_rva : Nat

def exportHeader (raw : List Byte) (offset : Nat) : ExportHeader where
  characteristics := u32 raw offset
  timestamp := u32 raw (offset + 0x04)
  major_version := u16 raw (offset + 0x08)
  minor_version := u16 raw (offset + 0x0A)
  name_rva := u32 raw (offset + 0x0C)
  ordinal_base := u32 raw (offset + 0x10)
  function_count := u32 raw (offset + 0x14)
  name_count := u32 raw (offset + 0x18)
  function_table_rva := u32 raw (offset + 0x1C)
  name_table_rva := u32 raw (offset + 0x20)
  ordinal_table_rva := u32 raw (offset + 0x24)

def isNameChar (b : Byte) : Bool :=
  let c := b.toNat
  (0x41 ≤ c && c ≤ 0x5A) || (0x61 ≤ c && c ≤ 0x7A) || (0x30 ≤ c && c ≤ 0x39) || c = 0x5F ||
    c = 0x2E || c = 0x2D

def MODULE_EXTENSIONS : List (List Byte) :=
  [[0x64, 0x6C, 0x6C], [0x44, 0x4C, 0x4C], [0x65, 0x78, 0x65], [0x45, 0x58, 0x45],
    [0x64, 0x72, 0x76], [0x44, 0x52, 0x56], [0x63, 0x70, 0x6C], [0x43, 0x50, 0x4C]]

def nameMatch (b rest : List Byte) (n : Nat) : Bool :=
  1 ≤ n && n ≤ 64 && n ≤ b.length && (b.take n).all isNameChar && slice b n 1 = [0x2E] &&
    slice b (n + 1) 3 ∈ MODULE_EXTENSIONS && b.drop (n + 4) = rest

def isModuleName (name : List Byte) : Bool := (List.range 65).any (nameMatch name [])

/-- MODULE_NAME_BYTES_RE at the head of `b`: the longest stem first. -/
def matchModuleName (b : List Byte) : Option (List Byte) :=
  ((List.range 65).reverse.find? fun n => nameMatch (b.take (n + 5)) [0] n).map
    fun n => b.take (n + 4)

/-- MODULE_NAME_BYTES_RE.finditer: the names with their places, none overlapping another. `skip`
bytes belong to the last match. -/
def findNames (i skip : Nat) : List Byte → List (Nat × List Byte)
  | [] => []
  | b :: bs =>
    if skip ≠ 0 then findNames (i + 1) (skip - 1) bs
    else
      match matchModuleName (b :: bs) with
      | some name => (i, name) :: findNames (i + 1) name.length bs
      | none => findNames (i + 1) 0 bs

/-- The ASCII string that ends within `max_len` = 128 bytes and is not empty. -/
def decodeAsciiCString (raw : List Byte) (offset : Nat) : Option (List Byte) :=
  let value := (slice raw offset 128).takeWhile (· ≠ 0)
  if raw.length ≤ offset then none
  else if value.length = (slice raw offset 128).length then none
  else if value = [] then none
  else if value.all (fun b => 0x20 ≤ b.toNat && b.toNat < 0x7F) then some value else none

/-- A delta of the whole window is still accepted. -/
def exportLocalOffset (exportRawOffset : Nat) (exportRva : Nat) (rva rawSize : Nat) : Option Nat :=
  if exportRva ≤ rva ∧ rva - exportRva ≤ EXPORT_SCAN_WINDOW ∧
      exportRawOffset + (rva - exportRva) < rawSize then
    some (exportRawOffset + (rva - exportRva))
  else none

def exportNamesAt (raw : List Byte) (offset rva nameTable count : Nat) :
    Option (List (Nat × List Byte)) :=
  (List.range count).mapM fun i => do
    let nameRva := u32 raw (nameTable + i * 4)
    let nameOffset ← exportLocalOffset offset rva nameRva raw.length
    let name ← decodeAsciiCString raw nameOffset
    return (nameRva, name)

def exportEnd (h : ExportHeader) (name : List Byte) (names : List (Nat × List Byte)) : Nat :=
  (names.map fun p => p.1 + p.2.length + 1).foldl max
    (max (max (h.function_table_rva + h.function_count * 4) (h.name_table_rva + h.name_count * 4))
      (max (h.ordinal_table_rva + h.name_count * 2) (h.name_rva + name.length + 1)))

def exportCandidate (raw : List Byte) (offset : Nat) (h : ExportHeader) (start : Nat)
    (name : List Byte) : Option ROMExportDirectory :=
  if !isModuleName name then none
  else if h.name_rva ≤ 0x28 + start then none
  else do
    let rva := h.name_rva - (0x28 + start)
    let functionTable ← exportLocalOffset offset rva h.function_table_rva raw.length
    let nameTable ← exportLocalOffset offset rva h.name_table_rva raw.length
    let ordinalTable ← exportLocalOffset offset rva h.ordinal_table_rva raw.length
    if raw.length < functionTable + h.function_count * 4 ∨
        raw.length < nameTable + h.name_count * 4 ∨
        raw.length < ordinalTable + h.name_count * 2 then none
    else
      let names ← exportNamesAt raw offset rva nameTable h.name_count
      let last := exportEnd h name names
      if last ≤ rva ∨ last - rva > EXPORT_SCAN_WINDOW then none
      else some {
        raw_offset := offset
        rva
        size := last - rva
        timestamp := h.timestamp
        name
        function_rvas := (List.range h.function_count).map fun i => u32 raw (functionTable + i * 4)
        export_names := names.map Prod.snd }

def parseExportAt (raw : List Byte) (offset : Nat) : Option ROMExportDirectory :=
  if raw.length < offset + 0x28 then none
  else
    let h := exportHeader raw offset
    if h.characteristics ≠ 0 then none
    else if h.major_version ≠ 0 ∨ h.minor_version ≠ 0 then none
    else if ¬ (0x30000000 ≤ h.timestamp ∧ h.timestamp ≤ 0x70000000) then none
    else if ¬ (1 ≤ h.ordinal_base ∧ h.ordinal_base ≤ 0x10000) then none
    else if ¬ (1 ≤ h.name_count ∧ h.name_count ≤ h.function_count ∧ h.function_count ≤ 4096) then
      none
    else if h.name_count > MAX_EXPORT_NAMES then none
    else
      let window := slice raw (offset + 0x28)
        (min raw.length (offset + EXPORT_SCAN_WINDOW) - (offset + 0x28))
      match (findNames 0 0 window).filterMap fun p => exportCandidate raw offset h p.1 p.2 with
      | [candidate] => some candidate
      | _ => none

/-- struct.pack_into refuses a value beyond 32 bits. -/
def packError : String := "argument out of range"

def shiftExportRva (blob : List Byte) (offset oldRva newRva size : Nat) :
    Except String (List Byte) :=
  if blob.length < offset + 4 then .ok blob
  else
    let value := u32 blob offset
    if oldRva ≤ value ∧ value < oldRva + size then
      if newRva + value - oldRva < 2 ^ 32 then
        .ok (patch blob offset (pack 4 (newRva + value - oldRva)))
      else .error packError
    else .ok blob

def exportCopy (raw : List Byte) (offset size : Nat) : List Byte :=
  let copySize := min size (raw.length - offset)
  slice raw offset copySize ++ List.replicate (size - copySize) 0

def shiftedWords (h : ExportHeader) (oldRva size : Nat) : List Nat :=
  [0x0C, 0x1C, 0x20, 0x24] ++
    if oldRva ≤ h.name_table_rva ∧ h.name_table_rva < oldRva + size then
      (List.range h.name_count).map (h.name_table_rva - oldRva + · * 4)
    else []

def relocatedExportBlob (raw : List Byte) (e32 : E32Rom) (ex : ROMExportDirectory) (newRva : Nat) :
    Except String (List Byte) := do
  let size := max e32.export_size ex.size
  let blob := exportCopy raw ex.raw_offset size
  if blob.length < 0x28 then return blob
  let h := exportHeader blob 0
  let blob ← (shiftedWords h ex.rva size).foldlM
    (fun blob offset => shiftExportRva blob offset ex.rva newRva size) blob
  if h.name_rva ≠ 0 ∧ ¬ (ex.rva ≤ h.name_rva ∧ h.name_rva < ex.rva + size) then
    return patch blob 0x0C (pack 4 h.name_rva)
  return blob

def lower (name : List Byte) : List Byte :=
  name.map fun b => if 0x41 ≤ b.toNat ∧ b.toNat ≤ 0x5A then b + 0x20 else b

def findAll (raw needle : List Byte) : List Nat :=
  (List.range raw.length).filter fun i => needle.isPrefixOf (raw.drop i)

/-- The multiples of four from one window in front of a name up to it. -/
def directoryOffsets (nameOffset : Nat) : List Nat :=
  let start := (nameOffset - EXPORT_SCAN_WINDOW) / 4 * 4
  let stop := nameOffset / 4 * 4
  (List.range ((stop - start) / 4 + 1)).map (start + 4 * ·)

def isExportOf (e32 : E32Rom) (moduleName : List Byte) (ex : ROMExportDirectory) : Bool :=
  lower ex.name = lower moduleName && ex.rva = e32.export_rva &&
    !(e32.export_size ≠ 0 && ex.size > max e32.export_size EXPORT_SCAN_WINDOW) &&
    ex.function_rvas.all fun rva => 0 < rva && rva < e32.virtual_size

/-- The match at the lowest offset; an offset has at most one directory. -/
def findModuleExport (raw moduleName : List Byte) (e32 : E32Rom) : Option ROMExportDirectory :=
  let hits := (findAll raw (moduleName ++ [0])).flatMap fun nameOffset =>
    ((directoryOffsets nameOffset).filterMap (parseExportAt raw)).filter
      (isExportOf e32 moduleName)
  hits.argmin ROMExportDirectory.raw_offset

end AipcOs.RomModule
