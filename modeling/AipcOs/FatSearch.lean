import AipcOs.FatVolume

/-! The search of the root directory finds the file of a well-formed volume, unless a read fails. -/
namespace AipcOs.Fat
open ByteMemory WordBits

section
variable {sec : Sector} {name11 : Nat → Byte} {isFat32 : Bool}

theorem nameMatch_iff (ent : Nat) :
    nameMatch sec ent name11 = true ↔ Named (fun i => sec (ent + i)) name11 := by
  simp only [nameMatch, Named, List.all_eq_true, List.mem_range, beq_iff_eq]

def Passed (sec : Sector) (name11 : Nat → Byte) (ent : Nat) : Prop :=
  sec ent ≠ 0x00 ∧
    (Live (fun i => sec (ent + i)) → ¬Named (fun i => sec (ent + i)) name11)

theorem scanEntries_passed {n ent : Nat} (h : Passed sec name11 ent) :
    scanEntries isFat32 sec name11 (n + 1) ent = scanEntries isFat32 sec name11 n (ent + 32) := by
  obtain ⟨hused, hother⟩ := h
  rw [scanEntries, if_neg hused]
  split
  · rfl
  split
  · rfl
  split
  · rfl
  rename_i hdeleted hslot hlabel
  have hname : nameMatch sec ent name11 = false := by
    rw [Bool.eq_false_iff, ne_eq, nameMatch_iff]
    exact hother ⟨hdeleted, hslot, not_not.mp hlabel⟩
  rw [hname]
  rfl

theorem scanEntries_hit {n ent : Nat} (hused : sec ent ≠ 0x00)
    (hlive : Live (fun i => sec (ent + i))) (hnamed : Named (fun i => sec (ent + i)) name11) :
    scanEntries isFat32 sec name11 (n + 1) ent =
      .found (firstClusterAt isFat32 sec ent) (rd32 sec (ent + 28)) := by
  have hdeleted : sec ent ≠ 0xE5 := hlive.1
  have hslot : sec (ent + 11) ≠ 0x0F := hlive.2.1
  have hlabel : sec (ent + 11) &&& 0x08 = 0 := hlive.2.2
  rw [scanEntries, if_neg hused, if_neg hdeleted, if_neg hslot, if_neg (not_not.mpr hlabel),
    (nameMatch_iff ent).mpr hnamed]
  rfl

theorem scanEntries_skip (isFat32 : Bool) (n k ent : Nat)
    (h : ∀ j < k, Passed sec name11 (ent + 32 * j)) :
    scanEntries isFat32 sec name11 (n + k) ent =
      scanEntries isFat32 sec name11 n (ent + 32 * k) := by
  induction k generalizing ent with
  | zero => rfl
  | succ k ih =>
    have hrest : ∀ j < k, Passed sec name11 (ent + 32 + 32 * j) := by
      intro j hj
      have hnext := h (j + 1) (Nat.succ_lt_succ hj)
      rwa [Nat.mul_succ, Nat.add_comm (32 * j), ← Nat.add_assoc] at hnext
    have hfirst : Passed sec name11 ent := h 0 (Nat.succ_pos k)
    rw [← Nat.add_assoc, scanEntries_passed hfirst, ih _ hrest, Nat.mul_succ,
      Nat.add_comm (32 * k), ← Nat.add_assoc]

theorem scanDirSector_passed (h : ∀ j < 16, Passed sec name11 (32 * j)) :
    scanDirSector isFat32 sec name11 = .next := by
  have hskip := scanEntries_skip isFat32 0 16 0 (by simpa using h)
  exact hskip

theorem scanDirSector_hit {j : Nat} (hj : j < 16) (h : ∀ i < j, Passed sec name11 (32 * i))
    (hused : sec (32 * j) ≠ 0x00) (hlive : Live (fun i => sec (32 * j + i)))
    (hnamed : Named (fun i => sec (32 * j + i)) name11) :
    scanDirSector isFat32 sec name11 =
      .found (firstClusterAt isFat32 sec (32 * j)) (rd32 sec (32 * j + 28)) := by
  have hskip := scanEntries_skip isFat32 (15 - j + 1) j 0 (by simpa using h)
  have hcount : 15 - j + 1 + j = 16 := by omega
  rw [hcount, Nat.zero_add, scanEntries_hit hused hlive hnamed] at hskip
  exact hskip

end

section
variable {cd : Card} {v : Volume} {name11 : Nat → Byte}

/-- One sector of the directory, unless its read fails. -/
theorem scanCluster_step (n : Nat) (lba : Word) (st : State) {scanned : Nat}
    (hs : scanned < MAX_FAT32_ROOT_SECTORS) :
    ((scanCluster cd v name11 (n + 1) lba scanned st).1 = .inl (.error (-6)) ∧ Faulty cd) ∨
    ∃ st', scanCluster cd v name11 (n + 1) lba scanned st =
      match scanDirSector v.isFat32 (cd.sector lba.toNat) name11 with
      | .found first size => (.inl (.ok (first, size)), st')
      | .stop => (.inl (.error (-7)), st')
      | .next => scanCluster cd v name11 n (lba + 1) (scanned + 1) st' := by
  rw [scanCluster, if_neg (not_le.mpr hs)]
  rcases readIo_cases cd lba st with ⟨hbad, hfault⟩ | ⟨hgood, hbuf⟩
  · simp only [hbad, Bool.not_false, if_true]
    exact .inl ⟨trivial, hfault⟩
  · simp only [hgood, hbuf, Bool.not_true, Bool.false_eq_true, if_false]
    exact .inr ⟨_, rfl⟩

theorem scanCluster_passed (n : Nat) (lba : Word) (scanned : Nat) (st : State)
    (h : ∀ j < n, scanDirSector v.isFat32 (cd.sector (lba + BitVec.ofNat 32 j).toNat) name11 = .next)
    (hs : scanned + n ≤ MAX_FAT32_ROOT_SECTORS) :
    ((scanCluster cd v name11 n lba scanned st).1 = .inl (.error (-6)) ∧ Faulty cd) ∨
      (scanCluster cd v name11 n lba scanned st).1 = .inr (scanned + n) := by
  induction n generalizing lba scanned st with
  | zero => exact .inr rfl
  | succ n ih =>
    have hfirst := h 0 (Nat.succ_pos n)
    rw [BitVec.add_zero] at hfirst
    have hrest : ∀ j < n,
        scanDirSector v.isFat32 (cd.sector (lba + 1 + BitVec.ofNat 32 j).toNat) name11 = .next := by
      intro j hj
      rw [add_one_ofNat]
      exact h (j + 1) (Nat.succ_lt_succ hj)
    have hbudget : scanned < MAX_FAT32_ROOT_SECTORS := by omega
    rcases scanCluster_step n lba st hbudget with hbad | ⟨st', hstep⟩
    · exact .inl hbad
    · rw [hfirst] at hstep
      rw [hstep, Nat.add_comm n, ← Nat.add_assoc]
      exact ih (lba + 1) (scanned + 1) st' hrest (by omega)

theorem scanCluster_hit (n k : Nat) (lba : Word) (scanned : Nat) (st : State) {first size : Word}
    (hk : k < n)
    (h : ∀ j < k, scanDirSector v.isFat32 (cd.sector (lba + BitVec.ofNat 32 j).toNat) name11 = .next)
    (hhit : scanDirSector v.isFat32 (cd.sector (lba + BitVec.ofNat 32 k).toNat) name11 =
      .found first size)
    (hs : scanned + k < MAX_FAT32_ROOT_SECTORS) :
    ((scanCluster cd v name11 n lba scanned st).1 = .inl (.error (-6)) ∧ Faulty cd) ∨
      (scanCluster cd v name11 n lba scanned st).1 = .inl (.ok (first, size)) := by
  induction k generalizing n lba scanned st with
  | zero =>
    obtain ⟨n, rfl⟩ := Nat.exists_eq_succ_of_ne_zero (Nat.ne_zero_of_lt hk)
    rw [BitVec.add_zero] at hhit
    rcases scanCluster_step n lba st hs with hbad | ⟨st', hstep⟩
    · exact .inl hbad
    · rw [hhit] at hstep
      exact .inr (congrArg Prod.fst hstep)
  | succ k ih =>
    obtain ⟨n, rfl⟩ := Nat.exists_eq_succ_of_ne_zero (Nat.ne_zero_of_lt hk)
    have hfirst := h 0 (Nat.succ_pos k)
    rw [BitVec.add_zero] at hfirst
    have hrest : ∀ j < k,
        scanDirSector v.isFat32 (cd.sector (lba + 1 + BitVec.ofNat 32 j).toNat) name11 = .next := by
      intro j hj
      rw [add_one_ofNat]
      exact h (j + 1) (Nat.succ_lt_succ hj)
    rw [← add_one_ofNat] at hhit
    have hbudget : scanned < MAX_FAT32_ROOT_SECTORS := by omega
    rcases scanCluster_step n lba st hbudget with hbad | ⟨st', hstep⟩
    · exact .inl hbad
    · rw [hfirst] at hstep
      rw [hstep]
      exact ih n (lba + 1) (scanned + 1) st' (Nat.lt_of_succ_lt_succ hk) hrest hhit (by omega)

/-- Within the budget, the root directory of a FAT16 volume is scanned as one large cluster. -/
theorem scanRoot_eq (n : Nat) (lba : Word) (scanned : Nat) (st : State)
    (hs : scanned + n ≤ MAX_FAT32_ROOT_SECTORS) :
    scanRoot cd v name11 n lba st =
      ((scanCluster cd v name11 n lba scanned st).1.elim id fun _ => .error (-7),
        (scanCluster cd v name11 n lba scanned st).2) := by
  induction n generalizing lba scanned st with
  | zero => rfl
  | succ n ih =>
    have hbudget : ¬scanned ≥ MAX_FAT32_ROOT_SECTORS := by omega
    rw [scanRoot, scanCluster, if_neg hbudget]
    simp only
    split
    · rfl
    · split
      · rfl
      · rfl
      · exact ih (lba + 1) (scanned + 1) _ (by omega)

end

theorem firstClusterAt_toNat (isFat32 : Bool) (sec : Sector) (ent : Nat) :
    (firstClusterAt isFat32 sec ent).toNat =
      (rd16 sec (ent + 26)).toNat + if isFat32 then (rd16 sec (ent + 20)).toNat * 2 ^ 16 else 0 := by
  have hhi := rd16_lt sec (ent + 20)
  have hlo := rd16_lt sec (ent + 26)
  unfold firstClusterAt
  cases isFat32 with
  | true =>
    simp only [if_true]
    rw [shift_or_toNat hlo (by omega), Nat.add_comm]
  | false =>
    simp only [Bool.false_eq_true, if_false]
    rw [shift_or_toNat hlo (by decide), Nat.add_comm]
    rfl

section
variable {cd : Card} {l : Layout} {clusters : Nat} {v : Volume} {name11 : Nat → Byte}

theorem RootFile.entry_passed {disk : Nat → Sector} (f : RootFile disk l clusters name11)
    {t j : Nat} (hj : j < 16) (h : 16 * t + j < f.entry) :
    Passed (disk (rootSector l f.root t)) name11 (32 * j) := by
  have hdiv : (16 * t + j) / 16 = t := by omega
  have hmod : (16 * t + j) % 16 = j := by omega
  have hbyte : entryByte disk l f.root (16 * t + j) = fun i =>
      disk (rootSector l f.root t) (32 * j + i) := by
    funext i
    rw [entryByte, hdiv, hmod]
  have hused := f.used (16 * t + j) (le_of_lt h)
  have hunique := f.unique (16 * t + j) h
  rw [hbyte] at hused hunique
  exact ⟨hused, hunique⟩

/-- The sectors before the file's entry hold nothing that stops the scan. -/
theorem RootFile.sector_passed {disk : Nat → Sector} (f : RootFile disk l clusters name11) {t : Nat}
    (ht : t < f.entry / 16) :
    scanDirSector l.fat32 (disk (rootSector l f.root t)) name11 = .next :=
  scanDirSector_passed fun _ hj => f.entry_passed hj (by omega)

theorem RootFile.sector_hit {disk : Nat → Sector} (f : RootFile disk l clusters name11) :
    ∃ first, scanDirSector l.fat32 (disk (rootSector l f.root (f.entry / 16))) name11 =
      .found first f.size ∧ first.toNat = f.chain.getD 0 0 := by
  have hmod : f.entry % 16 < 16 := Nat.mod_lt _ (by decide)
  have hbefore : ∀ j < f.entry % 16,
      Passed (disk (rootSector l f.root (f.entry / 16))) name11 (32 * j) :=
    fun j hj => f.entry_passed (lt_trans hj hmod) (by omega)
  refine ⟨firstClusterAt l.fat32 (disk (rootSector l f.root (f.entry / 16))) (32 * (f.entry % 16)),
    ?_, ?_⟩
  · rw [f.size_eq]
    exact scanDirSector_hit hmod hbefore (f.used _ le_rfl) f.live f.named
  · rw [f.chain_ok.head]
    exact firstClusterAt_toNat _ _ _

def Found (cd : Card) (f : RootFile cd.sector l clusters name11) (r : Find × State) : Prop :=
  (∃ first, r.1 = .ok (first, f.size) ∧ first.toNat = f.chain.getD 0 0 ∧ CacheOk cd r.2) ∨
    ∃ rc, r.1 = .error rc ∧ rc ≠ 0 ∧ Faulty cd

theorem rootSector_cluster (root : List Nat) (hwide : l.fat32 = true) {k j : Nat}
    (hj : j < l.sectorsPerCluster) :
    rootSector l root (l.sectorsPerCluster * k + j) = l.clusterStart (root.getD k 0) + j := by
  have hpos : 0 < l.sectorsPerCluster := Nat.zero_lt_of_lt hj
  rw [rootSector, hwide, if_pos rfl, Nat.mul_add_div hpos, Nat.div_eq_of_lt hj, Nat.add_zero,
    Nat.mul_add_mod, Nat.mod_eq_of_lt hj]

/-- One cluster of the root directory: the file's entry is in it, or the scan goes on behind it. -/
theorem scanCluster_exact (h : WellFormed cd.sector l clusters) (hv : Reads l v)
    (f : RootFile cd.sector l clusters name11) (hwide : l.fat32 = true) {k : Nat} {cluster : Word}
    (st : State) (hbudget : f.entry / 16 < MAX_FAT32_ROOT_SECTORS)
    (hk : l.sectorsPerCluster * k ≤ f.entry / 16) (hcluster : cluster.toNat = f.root.getD k 0)
    (hlow : 2 ≤ cluster.toNat) (hhigh : cluster.toNat < clusters + 2) :
    let r := (scanCluster cd v name11 l.sectorsPerCluster (clusterLba v cluster)
      (l.sectorsPerCluster * k) st).1
    (r = .inl (.error (-6)) ∧ Faulty cd) ∨
    (∃ first, r = .inl (.ok (first, f.size)) ∧ first.toNat = f.chain.getD 0 0) ∨
    (r = .inr (l.sectorsPerCluster * (k + 1)) ∧ l.sectorsPerCluster * (k + 1) ≤ f.entry / 16) := by
  have hsector : ∀ j < l.sectorsPerCluster,
      scanDirSector v.isFat32 (cd.sector (clusterLba v cluster + BitVec.ofNat 32 j).toNat) name11 =
      scanDirSector l.fat32
        (cd.sector (rootSector l f.root (l.sectorsPerCluster * k + j))) name11 := by
    intro j hj
    rw [hv.isFat32, clusterLba_toNat h hv hlow hhigh hj, hcluster,
      rootSector_cluster f.root hwide hj]
  rw [Nat.mul_succ]
  by_cases hhere : f.entry / 16 < l.sectorsPerCluster * k + l.sectorsPerCluster
  · obtain ⟨first, hhit, hfirst⟩ := f.sector_hit
    have hoff : f.entry / 16 - l.sectorsPerCluster * k < l.sectorsPerCluster := by omega
    have hentry := hsector _ hoff
    rw [Nat.add_sub_cancel' hk, hhit] at hentry
    have hscan := scanCluster_hit l.sectorsPerCluster (f.entry / 16 - l.sectorsPerCluster * k)
      (clusterLba v cluster) (l.sectorsPerCluster * k) st hoff
      (fun j hj => (hsector j (by omega)).trans (f.sector_passed (by omega))) hentry (by omega)
    rcases hscan with hbad | hgood
    · exact .inl hbad
    · exact .inr (.inl ⟨first, hgood, hfirst⟩)
  · rw [not_lt] at hhere
    have hscan := scanCluster_passed l.sectorsPerCluster (clusterLba v cluster)
      (l.sectorsPerCluster * k) st
      (fun j hj => (hsector j hj).trans (f.sector_passed (by omega))) (by omega)
    rcases hscan with hbad | hgood
    · exact .inl hbad
    · exact .inr (.inr ⟨hgood, hhere⟩)

theorem scanChain_exact (h : WellFormed cd.sector l clusters) (hv : Reads l v)
    (f : RootFile cd.sector l clusters name11) (hwide : l.fat32 = true) (fuel k : Nat)
    (cluster : Word) (st : State) (r : Find × State)
    (hrun : scanChain cd v name11 fuel cluster (l.sectorsPerCluster * k) st = some r)
    (hk : l.sectorsPerCluster * k ≤ f.entry / 16) (hon : OnChain cd v f.root k cluster st) :
    Found cd f r := by
  have hroot := f.inRoot
  rw [hwide, if_pos rfl] at hroot
  obtain ⟨hchain, hwithin, hbudget⟩ := hroot
  have heoc : eoc v = 0x0FFFFFF8 := by rw [eoc, hv.isFat32, hwide, if_pos rfl]
  induction fuel generalizing k cluster st with
  | zero => cases hrun
  | succ fuel ih =>
    have hlength : k < f.root.length := Nat.lt_of_mul_lt_mul_left (lt_of_le_of_lt hk hwithin)
    rw [scanChain, ← heoc] at hrun
    by_cases hgo : cluster < eoc v ∧ cluster ≥ 2 ∧ l.sectorsPerCluster * k < MAX_FAT32_ROOT_SECTORS
    · rw [if_pos hgo, hv.sectorsPerCluster] at hrun
      obtain ⟨hcluster, hcache⟩ := hon.resolve_right (fun hend => hend.1 hgo.1)
      obtain ⟨hlow, hhigh⟩ := hchain.getD_valid hlength
      rw [← hcluster] at hlow hhigh
      have hscan := scanCluster_exact h hv f hwide st hbudget hk hcluster hlow hhigh
      have hframe := (scanCluster_frame cd v name11 l.sectorsPerCluster (clusterLba v cluster)
        (l.sectorsPerCluster * k) st).1
      generalize scanCluster cd v name11 l.sectorsPerCluster (clusterLba v cluster)
        (l.sectorsPerCluster * k) st = r' at hrun hscan hframe
      obtain ⟨found, st'⟩ := r'
      rcases hscan with ⟨hbad, hfault⟩ | ⟨first, hgood, hfirst⟩ | ⟨hpassed, hhere⟩
      · cases hbad
        cases hrun
        exact .inr ⟨-6, rfl, by decide, hfault⟩
      · cases hgood
        cases hrun
        exact .inl ⟨first, rfl, hfirst, hcache.frame hframe⟩
      · cases hpassed
        have hnext : k + 1 < f.root.length :=
          Nat.lt_of_mul_lt_mul_left (lt_of_le_of_lt hhere hwithin)
        exact ih (k + 1) _ _ hrun hhere
          (onChain_next h hv hchain hnext hcluster (hcache.frame hframe))
    · rw [if_neg hgo] at hrun
      cases hrun
      rcases hon with ⟨hcluster, -⟩ | ⟨-, hfault⟩
      · obtain ⟨hlow, hhigh⟩ := hchain.getD_valid hlength
        rw [← hcluster] at hlow hhigh
        exact absurd ⟨cluster_below_eoc h hv hhigh, hlow, lt_of_le_of_lt hk hbudget⟩ hgo
      · exact .inr ⟨-7, rfl, by decide, hfault⟩

theorem scanRoot_exact (h : WellFormed cd.sector l clusters) (hv : Reads l v)
    (f : RootFile cd.sector l clusters name11) (hnarrow : l.fat32 = false) {st : State}
    (hcache : CacheOk cd st) :
    Found cd f (scanRoot cd v name11 v.rootDirSectors.toNat v.rootStartLba st) := by
  have hentry := f.inRoot
  simp only [hnarrow, Bool.false_eq_true, if_false] at hentry
  have hentries : l.rootEntries < 2 ^ 16 := by
    rw [h.bpb]
    exact rd16_lt _ _
  have hcount : l.rootSectors = (l.rootEntries * 32 + 511) / 512 := by
    simp only [Layout.rootSectors, hnarrow, Bool.false_eq_true, if_false]
  have hbudget : 0 + l.rootSectors ≤ MAX_FAT32_ROOT_SECTORS := by
    unfold MAX_FAT32_ROOT_SECTORS
    omega
  have hwithin : f.entry / 16 < l.rootSectors := by omega
  have hsector : ∀ j < l.rootSectors,
      scanDirSector v.isFat32 (cd.sector (v.rootStartLba + BitVec.ofNat 32 j).toNat) name11 =
      scanDirSector l.fat32 (cd.sector (rootSector l f.root j)) name11 := by
    intro j hj
    have hlt : l.rootStart + l.rootSectors < 2 ^ 32 := h.dataStart_lt
    have hoff : (BitVec.ofNat 32 j).toNat = j := by
      rw [BitVec.toNat_ofNat]
      exact Nat.mod_eq_of_lt (by omega)
    rw [hv.isFat32, add_toNat (hv.rootStart hnarrow) hoff (by omega), rootSector, hnarrow]
    rfl
  obtain ⟨first, hhit, hfirst⟩ := f.sector_hit
  have hscan := scanCluster_hit l.rootSectors (f.entry / 16) v.rootStartLba 0 st hwithin
    (fun j hj => (hsector j (by omega)).trans (f.sector_passed hj))
    ((hsector _ hwithin).trans hhit) (by omega)
  have hframe := (scanCluster_frame cd v name11 l.rootSectors v.rootStartLba 0 st).1
  rw [hv.rootSectors hnarrow, scanRoot_eq l.rootSectors v.rootStartLba 0 st hbudget]
  rcases hscan with ⟨hbad, hfault⟩ | hgood
  · rw [hbad]
    exact .inr ⟨-6, rfl, by decide, hfault⟩
  · rw [hgood]
    exact .inl ⟨first, rfl, hfirst, hcache.frame hframe⟩

theorem findInRoot_exact (h : WellFormed cd.sector l clusters) (hv : Reads l v)
    (f : RootFile cd.sector l clusters name11) {fuel : Nat} {st : State} {r : Find × State}
    (hcache : CacheOk cd st) (hrun : findInRoot cd fuel v name11 st = some r) : Found cd f r := by
  rw [findInRoot, hv.isFat32] at hrun
  cases hwidth : l.fat32 with
  | true =>
    rw [hwidth, if_pos rfl] at hrun
    have hroot := f.inRoot
    rw [hwidth, if_pos rfl] at hroot
    refine scanChain_exact h hv f hwidth fuel 0 _ st r hrun (Nat.zero_le _) (.inl ⟨?_, hcache⟩)
    rw [hv.rootCluster hwidth, hroot.1.head]
  | false =>
    simp only [hwidth, Bool.false_eq_true, if_false, Option.some.injEq] at hrun
    rw [← hrun]
    exact scanRoot_exact h hv f hwidth hcache

end

end AipcOs.Fat
