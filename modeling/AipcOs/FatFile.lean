import AipcOs.FatSearch

/-! A file of a well-formed volume is delivered whole or, behind a read that fails, not at all. -/
namespace AipcOs.Fat
open ByteMemory WordBits

section
variable {disk : Nat → Sector} {l : Layout} {clusters : Nat} {v : Volume}
variable {cd : Card} {first : Nat} {cs : List Nat} {k : Nat} {cluster : Word} {st : State}

/-- The bytes of one cluster, at their place in the file. -/
theorem fileByte_cluster (chain : List Nat) {k i : Nat} (hle : l.clusterBytes * k ≤ i)
    (hlt : i < l.clusterBytes * (k + 1)) :
    fileByte disk l chain i =
      disk (l.clusterStart (chain.getD k 0) + (i - l.clusterBytes * k) / 512)
        ((i - l.clusterBytes * k) % 512) := by
  have hspan : i - l.clusterBytes * k < l.clusterBytes := by
    rw [Nat.mul_succ] at hlt
    omega
  have hdiv : i / l.clusterBytes = k := by
    apply Nat.div_eq_of_lt_le
    · rwa [Nat.mul_comm]
    · rwa [Nat.mul_comm]
  have hmod : i % l.clusterBytes = i - l.clusterBytes * k := by
    have hsplit := Nat.div_add_mod i l.clusterBytes
    rw [hdiv] at hsplit
    omega
  have hcol : i % 512 = (i - l.clusterBytes * k) % 512 := by
    rw [Layout.clusterBytes, Nat.mul_assoc] at hle ⊢
    omega
  rw [fileByte, hdiv, hmod, hcol]

/-- How the loop over the clusters may end: every byte it has loaded is the file's, and it stops
short only behind a read that failed. -/
def Loaded (cd : Card) (l : Layout) (cs : List Nat) (size : Word) (r : Option Word × State) :
    Prop :=
  (r.1 = none → Faulty cd) ∧ ∀ n, r.1 = some n →
    (∀ i < n.toNat, r.2.dst i = fileByte cd.sector l cs i) ∧ (n ≠ size → Faulty cd)

/-- The bytes of a cluster behind those already loaded. -/
theorem clusterLoad_exact (h : WellFormed cd.sector l clusters) (hv : Reads l v) {size loaded n : Word}
    {st' : State} (hload : ClusterLoad cd size l.sectorsPerCluster (clusterLba v cluster) loaded st
      (some n, st'))
    (hat : loaded.toNat = l.clusterBytes * k) (hcluster : cluster.toNat = cs.getD k 0)
    (hlow : 2 ≤ cluster.toNat) (hhigh : cluster.toNat < clusters + 2)
    (hbytes : ∀ i < loaded.toNat, st.dst i = fileByte cd.sector l cs i) :
    n.toNat = min size.toNat (l.clusterBytes * (k + 1)) ∧
      ∀ i < n.toNat, st'.dst i = fileByte cd.sector l cs i := by
  have hreach : n.toNat = min size.toNat (l.clusterBytes * (k + 1)) := by
    rw [hload.reaches n rfl, hat, Nat.mul_succ]
    rfl
  refine ⟨hreach, ?_⟩
  intro i hi
  by_cases hold : i < loaded.toNat
  · exact (hload.outside i (.inl hold)).trans (hbytes i hold)
  · have hspan : (i - loaded.toNat) / 512 < l.sectorsPerCluster := by
      apply Nat.div_lt_of_lt_mul
      rw [Nat.mul_succ] at hreach
      rw [hat]
      unfold Layout.clusterBytes at *
      omega
    have hle : l.clusterBytes * k ≤ i := by omega
    have hend : i < l.clusterBytes * (k + 1) := by omega
    rw [hload.loads n rfl i (not_lt.mp hold) hi, clusterLba_toNat h hv hlow hhigh hspan,
      hcluster, hat, fileByte_cluster cs hle hend]

/-- A cluster that begins inside the file is one of the chain. -/
theorem lt_chain_length {size : Word} (hsize : size.toNat ≤ l.clusterBytes * cs.length)
    (hlt : l.clusterBytes * k < size.toNat) : k < cs.length :=
  Nat.lt_of_mul_lt_mul_left (hlt.trans_le hsize)

theorem loadChain_stops (h : WellFormed cd.sector l clusters) (hv : Reads l v)
    (hchain : Chain cd.sector l clusters first cs) {size : Word}
    (hsize : size.toNat ≤ l.clusterBytes * cs.length) {loaded : Word}
    (hloaded : loaded.toNat = min size.toNat (l.clusterBytes * k))
    (hbytes : ∀ i < loaded.toNat, st.dst i = fileByte cd.sector l cs i)
    (hon : loaded.toNat < size.toNat → OnChain cd v cs k cluster st)
    (hstop : ¬(cluster < eoc v ∧ cluster ≥ 2 ∧ loaded < size)) :
    Loaded cd l cs size (some loaded, st) := by
  refine ⟨nofun, ?_⟩
  intro n hn
  cases hn
  refine ⟨hbytes, ?_⟩
  intro hshort
  have hlt : loaded.toNat < size.toNat := by
    have hne : loaded.toNat ≠ size.toNat := fun heq => hshort (BitVec.eq_of_toNat_eq heq)
    omega
  obtain ⟨hcluster, -⟩ | ⟨-, hfault⟩ := hon hlt
  · have hinside : l.clusterBytes * k < size.toNat := by omega
    obtain ⟨hlow, hhigh⟩ := hchain.getD_valid (lt_chain_length hsize hinside)
    rw [← hcluster] at hlow hhigh
    exact absurd ⟨cluster_below_eoc h hv hhigh, hlow, hlt⟩ hstop
  · exact hfault

theorem loadChain_exact (h : WellFormed cd.sector l clusters) (hv : Reads l v)
    (hchain : Chain cd.sector l clusters first cs) {size : Word}
    (hsize : size.toNat ≤ l.clusterBytes * cs.length) (fuel k : Nat) (cluster loaded : Word)
    (st : State) (r : Option Word × State)
    (hrun : loadChain cd v size fuel cluster loaded st = some r)
    (hloaded : loaded.toNat = min size.toNat (l.clusterBytes * k))
    (hbytes : ∀ i < loaded.toNat, st.dst i = fileByte cd.sector l cs i)
    (hon : loaded.toNat < size.toNat → OnChain cd v cs k cluster st) :
    Loaded cd l cs size r := by
  induction fuel generalizing k cluster loaded st with
  | zero => cases hrun
  | succ fuel ih =>
    by_cases hgo : cluster < eoc v ∧ cluster ≥ 2 ∧ loaded < size
    · have hlt : loaded.toNat < size.toNat := hgo.2.2
      obtain ⟨hcluster, hcache⟩ := (hon hlt).resolve_right (fun hend => hend.1 hgo.1)
      have hat : loaded.toNat = l.clusterBytes * k := by omega
      have hk := lt_chain_length hsize (hat ▸ hlt)
      obtain ⟨hlow, hhigh⟩ := hchain.getD_valid hk
      rw [← hcluster] at hlow hhigh
      have hload := loadCluster_spec cd size v.sectorsPerCluster.toNat (clusterLba v cluster)
        loaded st (le_of_lt hlt)
      generalize hread : loadCluster cd size v.sectorsPerCluster.toNat (clusterLba v cluster)
        loaded st = r' at hload
      rw [hv.sectorsPerCluster] at hload
      obtain ⟨n, st'⟩ := r'
      cases n with
      | none =>
        rw [loadChain_failed hgo hread] at hrun
        cases hrun
        refine ⟨fun _ => hload.failed rfl, ?_⟩
        intro n hn
        cases hn
      | some n =>
        rw [loadChain_next hgo hread] at hrun
        obtain ⟨hreach, hmore⟩ := clusterLoad_exact h hv hload hat hcluster hlow hhigh hbytes
        refine ih (k + 1) _ n _ hrun hreach ?_ ?_
        · intro i hi
          rw [fatEntry_dst]
          exact hmore i hi
        · intro hmore
          refine onChain_next h hv hchain (lt_chain_length hsize (by omega)) hcluster ?_
          unfold CacheOk
          rw [hload.fatBuf, hload.fatBufLba]
          exact hcache
    · rw [loadChain, if_neg hgo] at hrun
      cases hrun
      exact loadChain_stops h hv hchain hsize hloaded hbytes hon hgo

end

section
variable {cd : Card} {l : Layout} {clusters : Nat} {v : Volume} {name11 : Nat → Byte}

/-- How a call may end on a well-formed volume: with the file, or behind a read that failed. -/
def Delivers (cd : Card) (f : RootFile cd.sector l clusters name11) (outSize : Option Word)
    (r : Result) : Prop :=
  (r.rc ≠ 0 → Faulty cd) ∧
  (r.rc = 0 → (r.outSize = outSize.map fun _ => f.size) ∧
    ∀ i < f.size.toNat, r.st.dst i = fileByte cd.sector l f.chain i)

theorem loadFound_exact (h : WellFormed cd.sector l clusters) (hv : Reads l v)
    (f : RootFile cd.sector l clusters name11) {maxBytes : Word} (hmax : f.size ≤ maxBytes)
    {outSize : Option Word} {fuel : Nat} {st : State} {first : Word} {r : Result}
    (hfirst : first.toNat = f.chain.getD 0 0) (hcache : CacheOk cd st)
    (hrun : loadFound cd fuel v maxBytes outSize first f.size st = some r) :
    Delivers cd f outSize r := by
  have hlength : 0 < f.chain.length := List.length_pos_of_ne_nil f.chain_ok.nonempty
  have hlow : ¬first < 2 := by
    rw [BitVec.lt_def, hfirst]
    exact not_lt.mpr (f.chain_ok.getD_valid hlength).1
  have haccept : ¬(f.size = 0 ∨ first < 2) := not_or.mpr ⟨f.nonempty, hlow⟩
  have hroom : ¬f.size > maxBytes := BitVec.not_lt.mpr hmax
  rw [loadFound, if_neg haccept, if_neg hroom] at hrun
  cases hload : loadChain cd v f.size fuel first 0 st with
  | none =>
    rw [hload] at hrun
    cases hrun
  | some r' =>
    have hloaded := loadChain_exact h hv f.chain_ok f.covered fuel 0 first 0 st r' hload
      (by rw [Nat.mul_zero, Nat.min_zero]; rfl) (fun i hi => absurd hi (Nat.not_lt_zero i))
      (fun _ => .inl ⟨hfirst, hcache⟩)
    rw [hload] at hrun
    obtain ⟨n, st'⟩ := r'
    cases n with
    | none =>
      cases hrun
      exact ⟨fun _ => hloaded.1 rfl, nofun⟩
    | some n =>
      obtain ⟨hbytes, hshort⟩ := hloaded.2 n rfl
      by_cases hn : n ≠ f.size
      · simp only [if_pos hn, Option.some.injEq] at hrun
        subst hrun
        exact ⟨fun _ => hshort hn, nofun⟩
      · simp only [if_neg hn, Option.some.injEq] at hrun
        subst hrun
        rw [not_not] at hn
        subst hn
        exact ⟨fun hrc => absurd rfl hrc, fun _ => ⟨rfl, hbytes⟩⟩

theorem loadFrom_exact (h : WellFormed cd.sector l clusters) (hv : Reads l v)
    (f : RootFile cd.sector l clusters name11) {maxBytes : Word} (hmax : f.size ≤ maxBytes)
    {outSize : Option Word} {fuel : Nat} {st : State} {r : Result} (hcache : CacheOk cd st)
    (hrun : loadFrom cd fuel v name11 maxBytes outSize st = some r) : Delivers cd f outSize r := by
  rw [loadFrom] at hrun
  cases hfind : findInRoot cd fuel v name11 st with
  | none =>
    rw [hfind] at hrun
    cases hrun
  | some found =>
    have hfound := findInRoot_exact h hv f hcache hfind
    rw [hfind] at hrun
    obtain ⟨found, st'⟩ := found
    rcases hfound with ⟨first, hok, hfirst, hcache'⟩ | ⟨rc, hbad, hrc, hfault⟩
    · cases hok
      exact loadFound_exact h hv f hmax hfirst hcache' hrun
    · cases hbad
      cases hrun
      exact ⟨fun _ => hfault, fun hzero => absurd hzero hrc⟩

theorem fatLoadFile_exact (h : WellFormed cd.sector l clusters) (hplain : l.Plain)
    (f : RootFile cd.sector l clusters name11) {maxBytes : Word} (hmax : f.size ≤ maxBytes)
    {outSize : Option Word} {fuel : Nat} {st : State} {r : Result}
    (hrun : fatLoadFile cd fuel name11 maxBytes outSize st = some r) :
    Delivers cd f outSize r := by
  unfold fatLoadFile at hrun
  have hread := readIo_cases cd 0 { st with fatBufLba := 0xFFFFFFFF }
  have hframe := readIo_frame cd 0 { st with fatBufLba := 0xFFFFFFFF }
  generalize readIo cd 0 { st with fatBufLba := 0xFFFFFFFF } = mbr at hrun hread hframe
  rcases hread with ⟨hbad, hfault⟩ | ⟨hgood, hbuf⟩
  · simp only [hbad, Bool.not_false, if_true, Option.some.injEq] at hrun
    subst hrun
    exact ⟨fun _ => hfault, nofun⟩
  have hmbr : mbr.2.ioBuf = cd.sector 0 := hbuf
  have hpart := findPartition_first h.partition
  have hsome : findPartition (cd.sector 0) (List.range 4) ≠ 0 := by
    intro hzero
    rw [hzero] at hpart
    exact h.partLba hpart.symm
  simp only [hgood, hmbr, h.signature.1, h.signature.2, hsome, Bool.not_true, Bool.false_eq_true,
    ne_eq, not_true_eq_false, or_self, if_false] at hrun
  generalize findPartition (cd.sector 0) (List.range 4) = partLba at hrun hpart
  have hread' := readIo_cases cd partLba mbr.2
  have hframe' := hframe.trans (readIo_frame cd partLba mbr.2)
  generalize readIo cd partLba mbr.2 = bpb at hrun hread' hframe'
  rcases hread' with ⟨hbad', hfault⟩ | ⟨hgood', hbuf'⟩
  · simp only [hbad', Bool.not_false, if_true, Option.some.injEq] at hrun
    subst hrun
    exact ⟨fun _ => hfault, nofun⟩
  obtain ⟨v, hvolume, hv⟩ := readVolume_reads h hplain hpart
  rw [hpart] at hbuf'
  simp only [hgood', hbuf', hvolume, Bool.not_true, Bool.false_eq_true, if_false] at hrun
  exact loadFrom_exact h hv f hmax (CacheOk.frame (.inl rfl) hframe') hrun

end

/-- The loader on every card and every pattern of failing reads. It ends, and writes inside of the
file alone. A file of a well-formed volume that has at most four FATs and whose first FAT is the
active one is delivered when no read fails, and nothing else is delivered in its place when some
do. -/
theorem fatLoadFile_safe_exact (cd : Card) (name11 : Nat → Byte) (maxBytes : Word)
    (outSize : Option Word) (st : State) :
    ∃ r : Result,
      (∀ fuel, MAX_FAT32_ROOT_SECTORS + maxBytes.toNat < fuel →
        fatLoadFile cd fuel name11 maxBytes outSize st = some r) ∧
      (∀ i, r.st.dst i ≠ st.dst i → i < r.fileSize.toNat ∧ r.fileSize ≤ maxBytes) ∧
      ∀ l clusters, WellFormed cd.sector l clusters → l.Plain →
        ∀ f : RootFile cd.sector l clusters name11, f.size ≤ maxBytes →
          ((∀ n, cd.fault n = none) → r.rc = 0) ∧
          (r.rc = 0 → (r.outSize = outSize.map fun _ => f.size) ∧
            ∀ i < f.size.toNat, r.st.dst i = fileByte cd.sector l f.chain i) := by
  obtain ⟨r, hends⟩ := fatLoadFile_ends cd name11 maxBytes outSize st
  refine ⟨r, hends.result, hends.inside, ?_⟩
  intro l clusters h hplain f hmax
  have hrun := hends.result _ (Nat.lt_succ_self _)
  obtain ⟨hfailed, hdelivered⟩ := fatLoadFile_exact h hplain f hmax hrun
  refine ⟨?_, hdelivered⟩
  intro hquiet
  by_contra hrc
  obtain ⟨n, left, hfault⟩ := hfailed hrc
  rw [hquiet n] at hfault
  cases hfault

def bootName (i : Nat) : Byte :=
  [0x42, 0x4F, 0x4F, 0x54, 0x20, 0x20, 0x20, 0x20, 0x42, 0x49, 0x4E].getD i 0

def cardSector (runs : List (Nat × Nat × List Byte)) (data lba off : Nat) : Byte :=
  match runs.find? fun run => run.1 = lba ∧ run.2.1 ≤ off ∧ off < run.2.1 + run.2.2.length with
  | some run => run.2.2.getD (off - run.2.1) 0
  | none => if lba < data then 0 else BitVec.ofNat 8 (lba + off)

/-- A small FAT16 card: the boot record, the boot sector, the first FAT, behind the last one a root
directory whose first entry is deleted, and two clusters of data. -/
def sampleSector (fats : Nat) : Nat → Sector :=
  cardSector [(0, 0x1C2, [0x06]), (0, 0x1C6, [0x01]), (0, 0x1FE, [0x55, 0xAA]),
    (1, 0x0C, [0x02, 0x01, 0x01, 0x00, BitVec.ofNat 8 fats, 0x10]), (1, 0x16, [0x01]),
    (2, 0x04, [0x03, 0x00, 0xFF, 0xFF]),
    (2 + fats, 0x00, [0xE5]),
    (2 + fats, 0x20, [0x42, 0x4F, 0x4F, 0x54, 0x20, 0x20, 0x20, 0x20, 0x42, 0x49, 0x4E, 0x20]),
    (2 + fats, 0x3A, [0x02, 0x00, 0x58, 0x02])] (3 + fats)

def sampleCard (fats : Nat) : Card := ⟨sampleSector fats, fun _ => none⟩

def sampleLayout (fats : Nat) : Layout := layoutOf 1 (sampleSector fats 1)

section sample
variable {fats : Nat} (h : fats = 1 ∨ fats = 5)
include h

theorem sampleLayout_wellFormed : WellFormed (sampleSector fats) (sampleLayout fats) 2 where
  signature := by rcases h with rfl | rfl <;> decide
  partition := ⟨0, by decide, fun j hj => absurd hj (Nat.not_lt_zero j),
    by rcases h with rfl | rfl <;> decide, by rcases h with rfl | rfl <;> decide⟩
  partLba := by rcases h with rfl | rfl <;> decide
  bpb := rfl
  bytesPerSector := by rcases h with rfl | rfl <;> decide
  sectorsPerCluster := ⟨0, by decide, by rcases h with rfl | rfl <;> decide⟩
  reserved := by rcases h with rfl | rfl <;> decide
  numFats := by rcases h with rfl | rfl <;> decide
  root := by rcases h with rfl | rfl <;> decide
  populated := by decide
  width := by rcases h with rfl | rfl <;> decide
  covered := by rcases h with rfl | rfl <;> decide
  addressed := by rcases h with rfl | rfl <;> decide

theorem sample_chain : Chain (sampleSector fats) (sampleLayout fats) 2 2 [2, 3] where
  nonempty := by decide
  head := rfl
  valid := by decide
  linked := by
    intro k hk
    obtain rfl : k = 0 := by
      simp only [List.length_cons, List.length_nil] at hk
      omega
    rcases h with rfl | rfl <;> decide

def sampleFile : RootFile (sampleSector fats) (sampleLayout fats) 2 bootName where
  root := []
  entry := 1
  chain := [2, 3]
  size := 600
  inRoot := by
    rcases h with rfl | rfl <;>
    · rw [if_neg (by decide)]
      decide
  used := by rcases h with rfl | rfl <;> decide
  unique := by
    intro m hm hlive
    obtain rfl : m = 0 := Nat.lt_one_iff.mp hm
    rcases h with rfl | rfl <;> exact absurd rfl hlive.1
  live := by rcases h with rfl | rfl <;> exact ⟨by decide, by decide, by decide⟩
  regular := by rcases h with rfl | rfl <;> decide
  named := by
    unfold Named
    rcases h with rfl | rfl <;> decide
  size_eq := by rcases h with rfl | rfl <;> decide
  nonempty := by decide
  chain_ok := by rcases h with rfl | rfl <;> exact sample_chain (by decide)
  covered := by rcases h with rfl | rfl <;> decide

end sample

def sampleState : State := ⟨0, fun _ => 0, fun _ => 0, 0, fun _ => 0⟩

theorem fatLoadFile_sample :
    ∃ r : Result, (∀ fuel, MAX_FAT32_ROOT_SECTORS + 1024 < fuel →
        fatLoadFile (sampleCard 1) fuel bootName 1024 (some 0) sampleState = some r) ∧
      r.rc = 0 ∧ r.outSize = some 600 ∧
      ∀ i < 600, r.st.dst i = fileByte (sampleSector 1) (sampleLayout 1) [2, 3] i := by
  obtain ⟨r, hrun, -, hexact⟩ := fatLoadFile_safe_exact (sampleCard 1) bootName 1024 (some 0)
    sampleState
  obtain ⟨hquiet, hdelivered⟩ := hexact _ _ (sampleLayout_wellFormed (.inl rfl))
    ⟨by decide, by decide⟩ (sampleFile (.inl rfl)) (by decide)
  have hrc := hquiet fun _ => rfl
  obtain ⟨hsize, hbytes⟩ := hdelivered hrc
  exact ⟨r, hrun, hrc, hsize, hbytes⟩

/-- A small FAT32 card with two FATs of which the second is active: they disagree on the cluster
behind the first one of the file. -/
def flaggedSector : Nat → Sector :=
  cardSector [(0, 0x1C2, [0x0C]), (0, 0x1C6, [0x01]), (0, 0x1FE, [0x55, 0xAA]),
    (1, 0x0C, [0x02, 0x01, 0x01, 0x00, 0x02]), (1, 0x24, [0x01, 0x00, 0x00, 0x00, 0x81]),
    (1, 0x2C, [0x02]),
    (2, 0x08, [0xFF, 0xFF, 0xFF, 0x0F, 0x04, 0x00, 0x00, 0x00, 0xFF, 0xFF, 0xFF, 0x0F]),
    (3, 0x08, [0xFF, 0xFF, 0xFF, 0x0F, 0x05, 0x00, 0x00, 0x00]),
    (3, 0x14, [0xFF, 0xFF, 0xFF, 0x0F]),
    (4, 0x00, [0x42, 0x4F, 0x4F, 0x54, 0x20, 0x20, 0x20, 0x20, 0x42, 0x49, 0x4E, 0x20]),
    (4, 0x14, [0x00, 0x00]), (4, 0x1A, [0x03, 0x00, 0x58, 0x02, 0x00, 0x00])] 4

def flaggedCard : Card := ⟨flaggedSector, fun _ => none⟩

def flaggedLayout : Layout := layoutOf 1 (flaggedSector 1)

theorem flaggedLayout_wellFormed : WellFormed flaggedSector flaggedLayout 4 where
  signature := by decide
  partition := ⟨0, by decide, fun j hj => absurd hj (Nat.not_lt_zero j), by decide, by decide⟩
  partLba := by decide
  bpb := rfl
  bytesPerSector := by decide
  sectorsPerCluster := ⟨0, by decide, by decide⟩
  reserved := by decide
  numFats := by decide
  root := by decide
  populated := by decide
  width := by decide
  covered := by decide
  addressed := by decide

theorem flagged_root : Chain flaggedSector flaggedLayout 4 2 [2] where
  nonempty := by decide
  head := rfl
  valid := by decide
  linked := fun k hk => absurd hk (by simp)

theorem flagged_chain : Chain flaggedSector flaggedLayout 4 3 [3, 5] where
  nonempty := by decide
  head := rfl
  valid := by decide
  linked := by
    intro k hk
    obtain rfl : k = 0 := by
      simp only [List.length_cons, List.length_nil] at hk
      omega
    decide

def flaggedFile : RootFile flaggedSector flaggedLayout 4 bootName where
  root := [2]
  entry := 0
  chain := [3, 5]
  size := 600
  inRoot := by
    rw [if_pos (by decide)]
    exact ⟨flagged_root, by decide, by decide⟩
  used := by decide
  unique := fun m hm => absurd hm (Nat.not_lt_zero m)
  live := ⟨by decide, by decide, by decide⟩
  regular := by decide
  named := by
    unfold Named
    decide
  size_eq := by decide
  nonempty := by decide
  chain_ok := flagged_chain
  covered := by decide

/-- Five FATs are refused, and with the second FAT active the first one is followed. -/
theorem fatLoadFile_other_fats :
    (¬ ∀ (cd : Card) (name11 : Nat → Byte) (maxBytes : Word) (outSize : Option Word) (st : State),
      ∃ r : Result, (∀ fuel, MAX_FAT32_ROOT_SECTORS + maxBytes.toNat < fuel →
          fatLoadFile cd fuel name11 maxBytes outSize st = some r) ∧
        ∀ l clusters, WellFormed cd.sector l clusters →
          ∀ f : RootFile cd.sector l clusters name11, f.size ≤ maxBytes →
            (∀ n, cd.fault n = none) → r.rc = 0) ∧
    ¬ ∀ (cd : Card) (name11 : Nat → Byte) (maxBytes : Word) (outSize : Option Word) (st : State),
      ∃ r : Result, (∀ fuel, MAX_FAT32_ROOT_SECTORS + maxBytes.toNat < fuel →
          fatLoadFile cd fuel name11 maxBytes outSize st = some r) ∧
        ∀ l clusters, WellFormed cd.sector l clusters → l.numFats ≤ 4 →
          ∀ f : RootFile cd.sector l clusters name11, f.size ≤ maxBytes →
            r.rc = 0 → ∀ i < f.size.toNat, r.st.dst i = fileByte cd.sector l f.chain i := by
  constructor
  · intro h
    obtain ⟨r, hrun, hexact⟩ := h (sampleCard 5) bootName 1024 none sampleState
    have hrc := hexact _ _ (sampleLayout_wellFormed (.inr rfl)) (sampleFile (.inr rfl)) (by decide)
      fun _ => rfl
    have hrefused : (fatLoadFile (sampleCard 5) 5121 bootName 1024 none sampleState).map Result.rc =
        some (-5) := by decide +kernel
    rw [hrun 5121 (by decide), Option.map_some, hrc] at hrefused
    cases hrefused
  · intro h
    obtain ⟨r, hrun, hexact⟩ := h flaggedCard bootName 1024 none sampleState
    have hloaded : (fatLoadFile flaggedCard 5121 bootName 1024 none sampleState).map
        (fun r => (r.rc, r.st.dst 512)) = some (0, 6) := by decide +kernel
    rw [hrun 5121 (by decide), Option.map_some, Option.some.injEq, Prod.mk.injEq] at hloaded
    have hbyte := hexact _ _ flaggedLayout_wellFormed (by decide) flaggedFile (by decide) hloaded.1
      512 (by decide)
    rw [hloaded.2] at hbyte
    exact absurd hbyte (by decide +kernel)

end AipcOs.Fat
