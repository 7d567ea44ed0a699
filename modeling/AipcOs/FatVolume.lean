import AipcOs.FatEnds
import AipcOs.WordBits

/-! Well-formed FAT16 and FAT32 volumes, the files of their root directory, and the numbers the
loader reads off them. -/
namespace AipcOs.Fat
open ByteMemory WordBits

/-- A volume, as the fields of its boot sector lay it out. Sectors are numbered from the start of
the card. -/
structure Layout where
  fat32 : Bool
  partLba : Nat
  sectorsPerCluster : Nat
  reserved : Nat
  numFats : Nat
  activeFat : Nat
  sectorsPerFat : Nat
  rootEntries : Nat
  rootCluster : Nat

namespace Layout

def entryBytes (l : Layout) : Nat := if l.fat32 then 4 else 2

def fatStart (l : Layout) : Nat := l.partLba + l.reserved

def activeStart (l : Layout) : Nat := l.fatStart + l.activeFat * l.sectorsPerFat

def rootStart (l : Layout) : Nat := l.fatStart + l.numFats * l.sectorsPerFat

def rootSectors (l : Layout) : Nat := if l.fat32 then 0 else (l.rootEntries * 32 + 511) / 512

def dataStart (l : Layout) : Nat := l.rootStart + l.rootSectors

def clusterStart (l : Layout) (c : Nat) : Nat := l.dataStart + (c - 2) * l.sectorsPerCluster

def clusterBytes (l : Layout) : Nat := 512 * l.sectorsPerCluster

end Layout

/-- BPB_ExtFlags: bit 7 turns the mirroring of the FATs off, bits 0 to 3 are the active one then. -/
def activeFatOf (bpb : Sector) : Nat :=
  if rd16 bpb 0x16 = 0 ∧ rd16 bpb 0x28 &&& 0x80 ≠ 0 then (rd16 bpb 0x28 &&& 0xF).toNat else 0

def layoutOf (partLba : Nat) (bpb : Sector) : Layout where
  fat32 := rd16 bpb 0x16 = 0
  partLba
  sectorsPerCluster := (bpb 0x0D).toNat
  reserved := (rd16 bpb 0x0E).toNat
  numFats := (bpb 0x10).toNat
  activeFat := activeFatOf bpb
  sectorsPerFat := if rd16 bpb 0x16 = 0 then (rd32 bpb 0x24).toNat else (rd16 bpb 0x16).toNat
  rootEntries := (rd16 bpb 0x11).toNat
  rootCluster := (rd32 bpb 0x2C).toNat

/-- The first of the four partition entries with a FAT type, and where it starts. -/
def FirstFat (mbr : Sector) (partLba : Nat) : Prop :=
  ∃ i < 4, (∀ j < i, fatType (mbr (0x1BE + 16 * j + 4)) = false) ∧
    fatType (mbr (0x1BE + 16 * i + 4)) = true ∧ (rd32 mbr (0x1BE + 16 * i + 8)).toNat = partLba

/-- A volume with this many clusters: each FAT has an entry for each, one of them is active, and
every sector has a 32-bit number. -/
structure WellFormed (disk : Nat → Sector) (l : Layout) (clusters : Nat) : Prop where
  signature : disk 0 0x1FE = 0x55 ∧ disk 0 0x1FF = 0xAA
  partition : FirstFat (disk 0) l.partLba
  partLba : l.partLba ≠ 0
  bpb : l = layoutOf l.partLba (disk l.partLba)
  bytesPerSector : (rd16 (disk l.partLba) 0x0B).toNat = 512
  sectorsPerCluster : ∃ k ≤ 7, l.sectorsPerCluster = 2 ^ k
  reserved : l.reserved ≠ 0
  numFats : l.activeFat < l.numFats
  root : if l.fat32 then 2 ≤ l.rootCluster else l.rootEntries ≠ 0
  populated : 0 < clusters
  width : clusters + 2 ≤ if l.fat32 then 0x0FFFFFF7 else 0xFFF7
  covered : (clusters + 2) * l.entryBytes ≤ 512 * l.sectorsPerFat
  addressed : l.dataStart + clusters * l.sectorsPerCluster ≤ 2 ^ 32

def link (disk : Nat → Sector) (l : Layout) (c : Nat) : Nat :=
  let sec := disk (l.activeStart + c * l.entryBytes / 512)
  let off := c * l.entryBytes % 512
  if l.fat32 then (rd32 sec off &&& 0x0FFFFFFF).toNat else (rd16 sec off).toNat

structure Chain (disk : Nat → Sector) (l : Layout) (clusters first : Nat) (cs : List Nat) :
    Prop where
  nonempty : cs ≠ []
  head : cs.getD 0 0 = first
  valid : ∀ c ∈ cs, 2 ≤ c ∧ c < clusters + 2
  linked : ∀ k, k + 1 < cs.length → link disk l (cs.getD k 0) = cs.getD (k + 1) 0

def rootSector (l : Layout) (root : List Nat) (j : Nat) : Nat :=
  if l.fat32 then l.clusterStart (root.getD (j / l.sectorsPerCluster) 0) + j % l.sectorsPerCluster
  else l.rootStart + j

def entryByte (disk : Nat → Sector) (l : Layout) (root : List Nat) (m i : Nat) : Byte :=
  disk (rootSector l root (m / 16)) (32 * (m % 16) + i)

/-- An entry that is in use and is neither a slot of a long name nor a volume label. -/
def Live (ent : Nat → Byte) : Prop := ent 0 ≠ 0xE5 ∧ ent 11 ≠ 0x0F ∧ ent 11 &&& 0x08 = 0

def Named (ent name11 : Nat → Byte) : Prop := ∀ i < 11, ent i = name11 i

/-- A file of the root directory: its entry, with no end of the directory and no entry of the same
name before it, and its clusters. `root` is the chain of the root directory on FAT32. -/
structure RootFile (disk : Nat → Sector) (l : Layout) (clusters : Nat) (name11 : Nat → Byte) where
  root : List Nat
  entry : Nat
  chain : List Nat
  size : Word
  inRoot : if l.fat32 then
      Chain disk l clusters l.rootCluster root ∧ entry / 16 < l.sectorsPerCluster * root.length ∧
        entry / 16 < MAX_FAT32_ROOT_SECTORS
    else entry < l.rootEntries
  used : ∀ m ≤ entry, entryByte disk l root m 0 ≠ 0x00
  unique : ∀ m < entry, Live (entryByte disk l root m) → ¬Named (entryByte disk l root m) name11
  live : Live (entryByte disk l root entry)
  regular : entryByte disk l root entry 11 &&& 0x18 = 0
  named : Named (entryByte disk l root entry) name11
  size_eq : size = rd32 (entryByte disk l root entry) 28
  nonempty : size ≠ 0
  chain_ok : Chain disk l clusters
    ((rd16 (entryByte disk l root entry) 26).toNat +
      if l.fat32 then (rd16 (entryByte disk l root entry) 20).toNat * 2 ^ 16 else 0) chain
  covered : size.toNat ≤ l.clusterBytes * chain.length

def fileByte (disk : Nat → Sector) (l : Layout) (chain : List Nat) (i : Nat) : Byte :=
  disk (l.clusterStart (chain.getD (i / l.clusterBytes) 0) + i % l.clusterBytes / 512) (i % 512)

/-- What the loader takes for granted: at most four FATs, and the first is the active one. -/
structure Layout.Plain (l : Layout) : Prop where
  few : l.numFats ≤ 4
  first : l.activeFat = 0

structure Reads (l : Layout) (v : Volume) : Prop where
  isFat32 : v.isFat32 = l.fat32
  sectorsPerCluster : v.sectorsPerCluster.toNat = l.sectorsPerCluster
  fatStart : v.fatStartLba.toNat = l.activeStart
  dataStart : v.dataStartLba.toNat = l.dataStart
  rootStart : l.fat32 = false → v.rootStartLba.toNat = l.rootStart
  rootSectors : l.fat32 = false → v.rootDirSectors.toNat = l.rootSectors
  rootCluster : l.fat32 = true → v.rootCluster.toNat = l.rootCluster

theorem byte_toNat (b : Byte) : (b.setWidth 32).toNat = b.toNat := toNat_setWidth_32 (by decide) b

theorem rd16_toNat (p : Sector) (i : Nat) :
    (rd16 p i).toNat = (p i).toNat + (p (i + 1)).toNat * 2 ^ 8 := by
  have hlo : ((p i).setWidth 32).toNat < 2 ^ 8 := by
    rw [byte_toNat]
    exact (p i).isLt
  have hhi : ((p (i + 1)).setWidth 32).toNat * 2 ^ 8 < 2 ^ 32 := by
    rw [byte_toNat]
    have := (p (i + 1)).isLt
    omega
  rw [rd16, BitVec.or_comm, shift_or_toNat hlo hhi, byte_toNat, byte_toNat, Nat.add_comm]

theorem rd16_lt (p : Sector) (i : Nat) : (rd16 p i).toNat < 2 ^ 16 := by
  have h0 := (p i).isLt
  have h1 := (p (i + 1)).isLt
  rw [rd16_toNat]
  omega

theorem isPowerOfTwo_pow {v : Word} {k : Nat} (hk : k ≤ 7) (hv : v.toNat = 2 ^ k) :
    isPowerOfTwo v = true ∧ ¬v > MAX_SECTORS_PER_CLUSTER := by
  obtain rfl : v = BitVec.ofNat 32 (2 ^ k) := by
    apply BitVec.eq_of_toNat_eq
    rw [hv, BitVec.toNat_ofNat, Nat.mod_eq_of_lt]
    exact Nat.pow_lt_pow_right (by decide) (by omega)
  interval_cases k <;> decide

theorem findPartition_first {mbr : Sector} {partLba : Nat} (h : FirstFat mbr partLba) :
    (findPartition mbr (List.range 4)).toNat = partLba := by
  obtain ⟨i, hi, hbefore, hhere, hlba⟩ := h
  have hscan : ∀ k n, k ≤ i → i < k + n →
      findPartition mbr (List.range' k n) = rd32 mbr (0x1BE + 16 * i + 8) := by
    intro k n hk hn
    induction n generalizing k with
    | zero => omega
    | succ n ih =>
      rw [List.range'_succ, findPartition]
      rcases hk.lt_or_eq with hlt | rfl
      · simp only [hbefore k hlt, Bool.false_eq_true, if_false]
        exact ih (k + 1) hlt (by omega)
      · simp only [hhere, if_true]
  rw [List.range_eq_range', hscan 0 4 (Nat.zero_le i) (by omega), hlba]

theorem WellFormed.dataStart_lt {disk : Nat → Sector} {l : Layout} {clusters : Nat}
    (h : WellFormed disk l clusters) : l.dataStart < 2 ^ 32 := by
  obtain ⟨k, -, hspc⟩ := h.sectorsPerCluster
  have hpos : 0 < clusters * l.sectorsPerCluster := by
    rw [hspc]
    exact Nat.mul_pos h.populated (Nat.two_pow_pos k)
  have := h.addressed
  omega

/-- The checks of the boot sector pass. -/
theorem WellFormed.checks {disk : Nat → Sector} {l : Layout} {clusters : Nat}
    (h : WellFormed disk l clusters) (hplain : l.Plain) :
    rd16 (disk l.partLba) 0x0B = 512 ∧
    isPowerOfTwo ((disk l.partLba 0x0D).setWidth 32) = true ∧
    ¬(disk l.partLba 0x0D).setWidth 32 > MAX_SECTORS_PER_CLUSTER ∧
    rd16 (disk l.partLba) 0x0E ≠ 0 ∧ (disk l.partLba 0x10).setWidth 32 ≠ (0 : Word) ∧
    ¬(disk l.partLba 0x10).setWidth 32 > (4 : Word) := by
  have hspc : l.sectorsPerCluster = (disk l.partLba 0x0D).toNat :=
    congrArg Layout.sectorsPerCluster h.bpb
  have hreserved : l.reserved = (rd16 (disk l.partLba) 0x0E).toNat :=
    congrArg Layout.reserved h.bpb
  have hfats : ((disk l.partLba 0x10).setWidth 32).toNat = l.numFats :=
    (byte_toNat _).trans (congrArg Layout.numFats h.bpb).symm
  obtain ⟨k, hk, hpow⟩ := h.sectorsPerCluster
  obtain ⟨hpower, hmax⟩ := isPowerOfTwo_pow hk ((byte_toNat _).trans (hspc.symm.trans hpow))
  have hmin := h.numFats
  refine ⟨BitVec.eq_of_toNat_eq h.bytesPerSector, hpower, hmax, ?_, ?_, ?_⟩
  · intro hzero
    rw [hzero] at hreserved
    exact h.reserved hreserved
  · intro hzero
    rw [hzero] at hfats
    have hnone : (0 : Word).toNat = 0 := rfl
    omega
  · rw [gt_iff_lt, BitVec.lt_def, hfats]
    exact not_lt.mpr hplain.few

theorem rootDirSectors_toNat {bpb : Sector} {l : Layout} (hnarrow : l.fat32 = false)
    (hentries : (rd16 bpb 0x11).toNat = l.rootEntries) :
    ((rd16 bpb 0x11 * 32 + 511) / 512).toNat = l.rootSectors := by
  have hbound := rd16_lt bpb 0x11
  rw [hentries] at hbound
  have hprod : (rd16 bpb 0x11 * 32).toNat = l.rootEntries * 32 :=
    mul_toNat hentries rfl (by omega)
  have hsum : (rd16 bpb 0x11 * 32 + 511).toNat = l.rootEntries * 32 + 511 :=
    add_toNat hprod rfl (by omega)
  rw [BitVec.toNat_udiv, hsum, Layout.rootSectors, hnarrow]
  rfl

theorem readVolume_reads {disk : Nat → Sector} {l : Layout} {clusters : Nat} {partLba : Word}
    (h : WellFormed disk l clusters) (hplain : l.Plain) (hpart : partLba.toNat = l.partLba) :
    ∃ v, readVolume partLba (disk l.partLba) = .ok v ∧ Reads l v := by
  obtain ⟨hbytes, hpower, hmax, hres, hnone, hfour⟩ := h.checks hplain
  have hlt := h.dataStart_lt
  have hspc := (byte_toNat _).trans (congrArg Layout.sectorsPerCluster h.bpb).symm
  have hreserved := (congrArg Layout.reserved h.bpb).symm
  have hfats := (byte_toNat _).trans (congrArg Layout.numFats h.bpb).symm
  have hentries := (congrArg Layout.rootEntries h.bpb).symm
  have hrootCluster := (congrArg Layout.rootCluster h.bpb).symm
  have hfat32 := congrArg Layout.fat32 h.bpb
  have hspf := congrArg Layout.sectorsPerFat h.bpb
  have hroot := h.root
  have hcovered := h.covered
  generalize disk l.partLba = bpb at *
  simp only [layoutOf] at hspc hreserved hfats hentries hrootCluster hfat32 hspf
  simp only [Layout.dataStart, Layout.rootStart, Layout.fatStart] at hlt
  have hfatStart : (partLba + rd16 bpb 0x0E).toNat = l.fatStart :=
    add_toNat hpart hreserved (by omega)
  have hactive : l.activeStart = l.fatStart := by
    rw [Layout.activeStart, hplain.first, Nat.zero_mul, Nat.add_zero]
  unfold readVolume
  simp only [hbytes, hpower, hmax, hres, hnone, hfour, ne_eq, not_true_eq_false, if_false,
    Bool.not_true, Bool.false_eq_true, or_false]
  by_cases hwide : rd16 bpb 0x16 = 0
  · simp only [hwide, decide_true, if_true] at hfat32 hspf ⊢
    simp only [hfat32, if_true, Layout.entryBytes] at hroot hcovered
    have hsize : rd32 bpb 0x24 ≠ 0 := by
      intro hzero
      rw [hzero] at hspf
      have hnil : (0 : Word).toNat = 0 := rfl
      omega
    have hcluster : ¬rd32 bpb 0x2C < 2 := by
      rw [BitVec.lt_def, hrootCluster]
      exact not_lt.mpr hroot
    simp only [hsize, hcluster, or_self, if_false]
    refine ⟨_, rfl, ?_⟩
    refine ⟨hfat32.symm, hspc, hfatStart.trans hactive.symm, ?_, ?_, ?_, fun _ => hrootCluster⟩
    · have hmul := mul_toNat hfats hspf.symm (by omega)
      have hdata := add_toNat hfatStart hmul (by simp only [Layout.fatStart]; omega)
      simp only [Layout.dataStart, Layout.rootStart, Layout.rootSectors, hfat32, if_true]
      exact hdata
    · intro hnarrow
      rw [hfat32] at hnarrow
      cases hnarrow
    · intro hnarrow
      rw [hfat32] at hnarrow
      cases hnarrow
  · simp only [hwide, decide_false, if_false] at hfat32 hspf ⊢
    simp only [hfat32, Bool.false_eq_true, if_false] at hroot
    have hsome : rd16 bpb 0x11 ≠ 0 := by
      intro hzero
      rw [hzero] at hentries
      exact hroot hentries.symm
    simp only [hsome, if_false]
    refine ⟨_, rfl, ?_⟩
    have hmul := mul_toNat hfats hspf.symm (by omega)
    have hrootStart : (partLba + rd16 bpb 0x0E + (bpb 0x10).setWidth 32 * rd16 bpb 0x16).toNat =
        l.rootStart := add_toNat hfatStart hmul (by simp only [Layout.fatStart]; omega)
    have hsectors := rootDirSectors_toNat hfat32 hentries
    refine ⟨hfat32.symm, hspc, hfatStart.trans hactive.symm, ?_, fun _ => hrootStart,
      fun _ => hsectors, ?_⟩
    · exact add_toNat hrootStart hsectors (by simp only [Layout.rootStart, Layout.fatStart]; omega)
    · intro hwide
      rw [hfat32] at hwide
      cases hwide

section
variable {disk : Nat → Sector} {l : Layout} {clusters : Nat} {v : Volume}

/-- The sectors of a cluster, as the loader counts them. -/
theorem clusterLba_toNat (h : WellFormed disk l clusters) (hv : Reads l v) {cluster : Word}
    (hlow : 2 ≤ cluster.toNat) (hhigh : cluster.toNat < clusters + 2) {j : Nat}
    (hj : j < l.sectorsPerCluster) :
    (clusterLba v cluster + BitVec.ofNat 32 j).toNat = l.clusterStart cluster.toNat + j := by
  have hfits : l.dataStart + ((cluster.toNat - 2) * l.sectorsPerCluster + j) < 2 ^ 32 := by
    have hlast : (cluster.toNat - 2 + 1) * l.sectorsPerCluster ≤ clusters * l.sectorsPerCluster :=
      Nat.mul_le_mul_right _ (by omega)
    rw [Nat.succ_mul] at hlast
    have := h.addressed
    omega
  have hsub : (cluster - 2).toNat = cluster.toNat - 2 := BitVec.toNat_sub_of_le hlow
  have hmul := mul_toNat hsub hv.sectorsPerCluster (by omega)
  have hbase := add_toNat hv.dataStart hmul (by omega)
  have hoff : (BitVec.ofNat 32 j).toNat = j := by
    rw [BitVec.toNat_ofNat]
    exact Nat.mod_eq_of_lt (by omega)
  have hsector := add_toNat hbase hoff (by omega)
  exact hsector

theorem fatByteOff_toNat (h : WellFormed disk l clusters) (hv : Reads l v) {cluster : Word}
    (hhigh : cluster.toNat < clusters + 2) :
    (fatByteOff v cluster).toNat = cluster.toNat * l.entryBytes := by
  have hwidth := h.width
  unfold fatByteOff Layout.entryBytes
  rw [hv.isFat32]
  cases hfat : l.fat32 with
  | true =>
    rw [hfat] at hwidth
    simp only [if_true] at hwidth ⊢
    exact mul_toNat rfl rfl (by omega)
  | false =>
    rw [hfat] at hwidth
    simp only [Bool.false_eq_true, if_false] at hwidth ⊢
    exact mul_toNat rfl rfl (by omega)

/-- The FAT sector of a cluster lies below the data, and so is never the number that marks an
empty cache. -/
theorem fatLba_toNat (h : WellFormed disk l clusters) (hv : Reads l v) {cluster : Word}
    (hhigh : cluster.toNat < clusters + 2) :
    (fatLba v cluster).toNat = l.activeStart + cluster.toNat * l.entryBytes / 512 ∧
      fatLba v cluster ≠ 0xFFFFFFFF := by
  have hcell : cluster.toNat * l.entryBytes < 512 * l.sectorsPerFat := by
    have hwide : 0 < l.entryBytes := by
      unfold Layout.entryBytes
      split <;> decide
    exact lt_of_lt_of_le (Nat.mul_lt_mul_of_pos_right hhigh hwide) h.covered
  have hfat : l.activeStart + l.sectorsPerFat ≤ l.dataStart := by
    have hone : (l.activeFat + 1) * l.sectorsPerFat ≤ l.numFats * l.sectorsPerFat :=
      Nat.mul_le_mul_right _ h.numFats
    rw [Nat.succ_mul] at hone
    unfold Layout.dataStart Layout.rootStart Layout.activeStart
    omega
  have hsector : cluster.toNat * l.entryBytes / 512 < l.sectorsPerFat :=
    Nat.div_lt_of_lt_mul hcell
  have hlt := h.dataStart_lt
  have hoff : (fatByteOff v cluster / 512).toNat = cluster.toNat * l.entryBytes / 512 := by
    rw [BitVec.toNat_udiv, fatByteOff_toNat h hv hhigh]
    rfl
  have hlba := add_toNat hv.fatStart hoff (by omega)
  refine ⟨hlba, ?_⟩
  intro hmark
  have hmarked : (fatLba v cluster).toNat = 0xFFFFFFFF := by
    rw [hmark]
    rfl
  rw [fatLba, hlba] at hmarked
  omega

theorem fatCell_toNat (h : WellFormed disk l clusters) (hv : Reads l v) {cluster : Word}
    (hhigh : cluster.toNat < clusters + 2) :
    (fatCell v (disk (fatLba v cluster).toNat) cluster).toNat = link disk l cluster.toNat := by
  have hoff : (fatByteOff v cluster &&& 0x1FF).toNat = cluster.toNat * l.entryBytes % 512 := by
    rw [BitVec.toNat_and, fatByteOff_toNat h hv hhigh]
    exact Nat.and_two_pow_sub_one_eq_mod _ 9
  unfold fatCell link
  rw [(fatLba_toNat h hv hhigh).1, hoff, hv.isFat32]
  split <;> rfl

/-- The loader stands at a cluster of the chain with a true cache, or at the end of chain that a
failed read of the FAT stands for. -/
def OnChain (cd : Card) (v : Volume) (cs : List Nat) (k : Nat) (cluster : Word) (st : State) :
    Prop :=
  (cluster.toNat = cs.getD k 0 ∧ CacheOk cd st) ∨ (¬cluster < eoc v ∧ Faulty cd)

theorem Chain.getD_valid {first : Nat} {cs : List Nat} (h : Chain disk l clusters first cs) {k : Nat}
    (hk : k < cs.length) : 2 ≤ cs.getD k 0 ∧ cs.getD k 0 < clusters + 2 := by
  rw [List.getD_eq_getElem cs 0 hk]
  exact h.valid _ (List.getElem_mem hk)

variable {cd : Card} {first : Nat} {cs : List Nat} {k : Nat} {cluster : Word} {st : State}

theorem onChain_next (h : WellFormed cd.sector l clusters) (hv : Reads l v)
    (hchain : Chain cd.sector l clusters first cs) (hk : k + 1 < cs.length)
    (hcluster : cluster.toNat = cs.getD k 0) (hcache : CacheOk cd st) :
    OnChain cd v cs (k + 1) (fatEntry cd v cluster st).1 (fatEntry cd v cluster st).2 := by
  have hhigh : cluster.toNat < clusters + 2 := by
    rw [hcluster]
    exact (hchain.getD_valid (Nat.lt_of_succ_lt hk)).2
  rcases fatEntry_spec hcache (fatLba_toNat h hv hhigh).2 with ⟨hend, hfault⟩ | ⟨hcell, hok⟩
  · refine .inr ⟨?_, hfault⟩
    rw [hend, eoc]
    split <;> decide
  · refine .inl ⟨?_, hok⟩
    rw [hcell, fatCell_toNat h hv hhigh, hcluster]
    exact hchain.linked k hk

/-- A cluster below the end of the chain is read, and is below the mark that ends it. -/
theorem cluster_below_eoc (h : WellFormed disk l clusters) (hv : Reads l v)
    (hhigh : cluster.toNat < clusters + 2) : cluster < eoc v := by
  have hwidth := h.width
  rw [BitVec.lt_def, eoc, hv.isFat32]
  cases hfat : l.fat32 with
  | true =>
    rw [hfat] at hwidth
    simp only [if_true] at hwidth ⊢
    exact lt_of_lt_of_le hhigh (le_trans hwidth (by decide))
  | false =>
    rw [hfat] at hwidth
    simp only [Bool.false_eq_true, if_false] at hwidth ⊢
    exact lt_of_lt_of_le hhigh (le_trans hwidth (by decide))

end

end AipcOs.Fat
