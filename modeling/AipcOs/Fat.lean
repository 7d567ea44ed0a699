import AipcOs.ByteMemory

/-! The FAT loader of the boot code. A read of the card may fail, and leaves anything in the buffer
it was to fill. -/
namespace AipcOs.Fat
open ByteMemory

def MAX_SECTORS_PER_CLUSTER : Word := 128
def MAX_FAT32_ROOT_SECTORS : Nat := 4096

abbrev Sector := Nat → Byte

/-- The sectors of a card, and the reads that fail, in the order they are made. -/
structure Card where
  sector : Nat → Sector
  fault : Nat → Option Sector

structure State where
  reads : Nat
  ioBuf : Sector
  fatBuf : Sector
  fatBufLba : Word
  dst : Nat → Byte

structure Volume where
  bytesPerSector : Word
  sectorsPerCluster : Word
  fatStartLba : Word
  rootStartLba : Word
  rootDirSectors : Word
  dataStartLba : Word
  rootCluster : Word
  isFat32 : Bool

def rd16 (p : Sector) (i : Nat) : Word := (p i).setWidth 32 ||| ((p (i + 1)).setWidth 32 <<< 8)

def rd32 (p : Sector) (i : Nat) : Word := leWord (p i) (p (i + 1)) (p (i + 2)) (p (i + 3))

def isPowerOfTwo (v : Word) : Bool := v ≠ 0 ∧ v &&& (v - 1) = 0

def readSector (cd : Card) (n : Nat) (lba : Word) : Bool × Sector :=
  match cd.fault n with
  | some left => (false, left)
  | none => (true, cd.sector lba.toNat)

def readIo (cd : Card) (lba : Word) (st : State) : Bool × State :=
  let r := readSector cd st.reads lba
  (r.1, { st with reads := st.reads + 1, ioBuf := r.2 })

def fatByteOff (v : Volume) (cluster : Word) : Word :=
  if v.isFat32 then cluster * 4 else cluster * 2

def fatLba (v : Volume) (cluster : Word) : Word := v.fatStartLba + fatByteOff v cluster / 512

def fatCell (v : Volume) (buf : Sector) (cluster : Word) : Word :=
  let off := (fatByteOff v cluster &&& 0x1FF).toNat
  if v.isFat32 then rd32 buf off &&& 0x0FFFFFFF else rd16 buf off

/-- The link behind a cluster. A FAT sector that cannot be read ends the chain. -/
def fatEntry (cd : Card) (v : Volume) (cluster : Word) (st : State) : Word × State :=
  if fatLba v cluster ≠ st.fatBufLba then
    let r := readSector cd st.reads (fatLba v cluster)
    let st := { st with reads := st.reads + 1, fatBuf := r.2 }
    if !r.1 then (if v.isFat32 then 0x0FFFFFFF else 0xFFFF, st)
    else (fatCell v st.fatBuf cluster, { st with fatBufLba := fatLba v cluster })
  else (fatCell v st.fatBuf cluster, st)

def nameMatch (sec : Sector) (ent : Nat) (name11 : Nat → Byte) : Bool :=
  (List.range 11).all fun i => sec (ent + i) == name11 i

inductive Scan where
  | next
  | stop
  | found (firstCluster fileSize : Word)

def firstClusterAt (isFat32 : Bool) (sec : Sector) (ent : Nat) : Word :=
  let lo := rd16 sec (ent + 26)
  let hi := if isFat32 then rd16 sec (ent + 20) else 0
  (hi <<< 16) ||| lo

def scanEntries (isFat32 : Bool) (sec : Sector) (name11 : Nat → Byte) : Nat → Nat → Scan
  | 0, _ => .next
  | n + 1, ent =>
    if sec ent = 0x00 then .stop
    else if sec ent = 0xE5 then scanEntries isFat32 sec name11 n (ent + 32)
    else if sec (ent + 11) = 0x0F then scanEntries isFat32 sec name11 n (ent + 32)
    else if sec (ent + 11) &&& 0x08 ≠ 0 then scanEntries isFat32 sec name11 n (ent + 32)
    else if !nameMatch sec ent name11 then scanEntries isFat32 sec name11 n (ent + 32)
    else .found (firstClusterAt isFat32 sec ent) (rd32 sec (ent + 28))

def scanDirSector (isFat32 : Bool) (sec : Sector) (name11 : Nat → Byte) : Scan :=
  scanEntries isFat32 sec name11 16 0

abbrev Find := Except Int (Word × Word)

/-- The sectors of one cluster of the root directory: what `find_in_root` returns, or the sectors
scanned so far. -/
def scanCluster (cd : Card) (v : Volume) (name11 : Nat → Byte) :
    Nat → Word → Nat → State → (Find ⊕ Nat) × State
  | 0, _, scanned, st => (.inr scanned, st)
  | n + 1, lba, scanned, st =>
    if scanned ≥ MAX_FAT32_ROOT_SECTORS then (.inl (.error (-7)), st)
    else
      let r := readIo cd lba st
      if !r.1 then (.inl (.error (-6)), r.2)
      else
        match scanDirSector v.isFat32 r.2.ioBuf name11 with
        | .found first size => (.inl (.ok (first, size)), r.2)
        | .stop => (.inl (.error (-7)), r.2)
        | .next => scanCluster cd v name11 n (lba + 1) (scanned + 1) r.2

def clusterLba (v : Volume) (cluster : Word) : Word :=
  v.dataStartLba + (cluster - 2) * v.sectorsPerCluster

/-- The root directory of a FAT32 volume. `none` when the fuel runs out. -/
def scanChain (cd : Card) (v : Volume) (name11 : Nat → Byte) :
    Nat → Word → Nat → State → Option (Find × State)
  | 0, _, _, _ => none
  | fuel + 1, cluster, scanned, st =>
    if cluster < 0x0FFFFFF8 ∧ cluster ≥ 2 ∧ scanned < MAX_FAT32_ROOT_SECTORS then
      match scanCluster cd v name11 v.sectorsPerCluster.toNat (clusterLba v cluster) scanned st with
      | (.inl found, st) => some (found, st)
      | (.inr scanned, st) =>
        let next := fatEntry cd v cluster st
        scanChain cd v name11 fuel next.1 scanned next.2
    else some (.error (-7), st)

def scanRoot (cd : Card) (v : Volume) (name11 : Nat → Byte) : Nat → Word → State → Find × State
  | 0, _, st => (.error (-7), st)
  | n + 1, lba, st =>
    let r := readIo cd lba st
    if !r.1 then (.error (-6), r.2)
    else
      match scanDirSector v.isFat32 r.2.ioBuf name11 with
      | .found first size => (.ok (first, size), r.2)
      | .stop => (.error (-7), r.2)
      | .next => scanRoot cd v name11 n (lba + 1) r.2

def findInRoot (cd : Card) (fuel : Nat) (v : Volume) (name11 : Nat → Byte) (st : State) :
    Option (Find × State) :=
  if v.isFat32 then scanChain cd v name11 fuel v.rootCluster 0 st
  else some (scanRoot cd v name11 v.rootDirSectors.toNat v.rootStartLba st)

def fatType (t : Byte) : Bool := t = 0x04 ∨ t = 0x06 ∨ t = 0x0B ∨ t = 0x0C ∨ t = 0x0E

def findPartition (mbr : Sector) : List Nat → Word
  | [] => 0
  | i :: is =>
    let e := 0x1BE + 16 * i
    if fatType (mbr (e + 4)) then rd32 mbr (e + 8) else findPartition mbr is

def readVolume (partLba : Word) (bpb : Sector) : Except Int Volume :=
  let bytesPerSector := rd16 bpb 0x0B
  let sectorsPerCluster := (bpb 0x0D).setWidth 32
  let reserved := rd16 bpb 0x0E
  let numFats := (bpb 0x10).setWidth 32
  let rootEntries := rd16 bpb 0x11
  let spf16 := rd16 bpb 0x16
  let fatStartLba := partLba + reserved
  if bytesPerSector ≠ 512 then .error (-5)
  else if !isPowerOfTwo sectorsPerCluster ∨ sectorsPerCluster > MAX_SECTORS_PER_CLUSTER then
    .error (-5)
  else if reserved = 0 ∨ numFats = 0 ∨ numFats > 4 then .error (-5)
  else if spf16 = 0 then
    let sectorsPerFat := rd32 bpb 0x24
    let rootCluster := rd32 bpb 0x2C
    if sectorsPerFat = 0 ∨ rootCluster < 2 then .error (-5)
    else .ok {
      bytesPerSector, sectorsPerCluster, fatStartLba, rootCluster,
      rootStartLba := 0, rootDirSectors := 0,
      dataStartLba := fatStartLba + numFats * sectorsPerFat, isFat32 := true }
  else if rootEntries = 0 then .error (-5)
  else
    let rootStartLba := fatStartLba + numFats * spf16
    let rootDirSectors := (rootEntries * 32 + 511) / 512
    .ok {
      bytesPerSector, sectorsPerCluster, fatStartLba, rootStartLba, rootDirSectors,
      rootCluster := 0, dataStartLba := rootStartLba + rootDirSectors, isFat32 := false }

def fill (dst : Nat → Byte) (off n : Nat) (bytes : Sector) : Nat → Byte := fun i =>
  if off ≤ i ∧ i < off + n then bytes (i - off) else dst i

def loadCluster (cd : Card) (fileSize : Word) :
    Nat → Word → Word → State → Option Word × State
  | 0, _, loaded, st => (some loaded, st)
  | n + 1, lba, loaded, st =>
    if loaded < fileSize then
      let remain := fileSize - loaded
      if remain ≥ 512 then
        let r := readSector cd st.reads lba
        let st := { st with reads := st.reads + 1, dst := fill st.dst loaded.toNat 512 r.2 }
        if !r.1 then (none, st) else loadCluster cd fileSize n (lba + 1) (loaded + 512) st
      else
        let r := readIo cd lba st
        if !r.1 then (none, r.2)
        else loadCluster cd fileSize n (lba + 1) (loaded + remain)
          { r.2 with dst := fill r.2.dst loaded.toNat remain.toNat r.2.ioBuf }
    else (some loaded, st)

def eoc (v : Volume) : Word := if v.isFat32 then 0x0FFFFFF8 else 0xFFF8

/-- The clusters of the file. The outer `none` when the fuel runs out. -/
def loadChain (cd : Card) (v : Volume) (fileSize : Word) :
    Nat → Word → Word → State → Option (Option Word × State)
  | 0, _, _, _ => none
  | fuel + 1, cluster, loaded, st =>
    if cluster < eoc v ∧ cluster ≥ 2 ∧ loaded < fileSize then
      match loadCluster cd fileSize v.sectorsPerCluster.toNat (clusterLba v cluster) loaded st with
      | (none, st) => some (none, st)
      | (some loaded, st) =>
        let next := fatEntry cd v cluster st
        loadChain cd v fileSize fuel next.1 loaded next.2
    else some (some loaded, st)

/-- How a call ends. `fileSize` is the local variable of the source, `outSize` the caller's, absent
for a null pointer. -/
structure Result where
  rc : Int
  fileSize : Word
  outSize : Option Word
  st : State

def loadFound (cd : Card) (fuel : Nat) (v : Volume) (maxBytes : Word) (outSize : Option Word)
    (firstCluster fileSize : Word) (st : State) : Option Result :=
  if fileSize = 0 ∨ firstCluster < 2 then some ⟨-9, fileSize, outSize, st⟩
  else if fileSize > maxBytes then some ⟨-9, fileSize, outSize, st⟩
  else
    match loadChain cd v fileSize fuel firstCluster 0 st with
    | none => none
    | some (none, st) => some ⟨-8, fileSize, outSize, st⟩
    | some (some loaded, st) =>
      if loaded ≠ fileSize then some ⟨-10, fileSize, outSize, st⟩
      else some ⟨0, fileSize, outSize.map fun _ => fileSize, st⟩

def loadFrom (cd : Card) (fuel : Nat) (v : Volume) (name11 : Nat → Byte) (maxBytes : Word)
    (outSize : Option Word) (st : State) : Option Result :=
  match findInRoot cd fuel v name11 st with
  | none => none
  | some (.error rc, st) => some ⟨rc, 0, outSize, st⟩
  | some (.ok (firstCluster, fileSize), st) =>
    loadFound cd fuel v maxBytes outSize firstCluster fileSize st

def fatLoadFile (cd : Card) (fuel : Nat) (name11 : Nat → Byte) (maxBytes : Word)
    (outSize : Option Word) (st : State) : Option Result :=
  let mbr := readIo cd 0 { st with fatBufLba := 0xFFFFFFFF }
  if !mbr.1 then some ⟨-1, 0, outSize, mbr.2⟩
  else if mbr.2.ioBuf 0x1FE ≠ 0x55 ∨ mbr.2.ioBuf 0x1FF ≠ 0xAA then some ⟨-2, 0, outSize, mbr.2⟩
  else
    let partLba := findPartition mbr.2.ioBuf (List.range 4)
    if partLba = 0 then some ⟨-3, 0, outSize, mbr.2⟩
    else
      let bpb := readIo cd partLba mbr.2
      if !bpb.1 then some ⟨-4, 0, outSize, bpb.2⟩
      else
        match readVolume partLba bpb.2.ioBuf with
        | .error rc => some ⟨rc, 0, outSize, bpb.2⟩
        | .ok v => loadFrom cd fuel v name11 maxBytes outSize bpb.2

end AipcOs.Fat
