import AipcOs.Fat

/-! What the loader does on any card: its loops end, and it writes inside of the file alone. -/
namespace AipcOs.Fat
open ByteMemory

def Faulty (cd : Card) : Prop := ∃ n left, cd.fault n = some left

theorem readSector_cases (cd : Card) (n : Nat) (lba : Word) :
    (readSector cd n lba).1 = false ∧ Faulty cd ∨
      readSector cd n lba = (true, cd.sector lba.toNat) := by
  rw [readSector]
  cases h : cd.fault n with
  | some left => exact .inl ⟨rfl, n, left, h⟩
  | none => exact .inr rfl

theorem fill_outside (dst : Nat → Byte) {off n i : Nat} (bytes : Sector)
    (h : i < off ∨ off + n ≤ i) : fill dst off n bytes i = dst i := if_neg (by omega)

theorem fill_inside (dst : Nat → Byte) {off n i : Nat} (bytes : Sector) (hle : off ≤ i)
    (hlt : i < off + n) : fill dst off n bytes i = bytes (i - off) := if_pos ⟨hle, hlt⟩

structure ClusterLoad (cd : Card) (fileSize : Word) (n : Nat) (lba loaded : Word) (st : State)
    (r : Option Word × State) : Prop where
  outside : ∀ i, i < loaded.toNat ∨ fileSize.toNat ≤ i → r.2.dst i = st.dst i
  fatBuf : r.2.fatBuf = st.fatBuf
  fatBufLba : r.2.fatBufLba = st.fatBufLba
  failed : r.1 = none → Faulty cd
  reaches : ∀ l, r.1 = some l → l.toNat = min fileSize.toNat (loaded.toNat + 512 * n)
  loads : ∀ l, r.1 = some l → ∀ i, loaded.toNat ≤ i → i < l.toNat →
    r.2.dst i = cd.sector (lba + BitVec.ofNat 32 ((i - loaded.toNat) / 512)).toNat
      ((i - loaded.toNat) % 512)

/-- One sector, and the sectors behind it. -/
theorem clusterLoad_cons {cd : Card} {fileSize lba loaded step : Word} {n : Nat} {st st' : State}
    {r : Option Word × State} (hlt : loaded.toNat < fileSize.toNat)
    (hstep : (loaded + step).toNat = min fileSize.toNat (loaded.toNat + 512))
    (hout : ∀ i, i < loaded.toNat ∨ (loaded + step).toNat ≤ i → st'.dst i = st.dst i)
    (hin : ∀ i, loaded.toNat ≤ i → i < (loaded + step).toNat →
      st'.dst i = cd.sector lba.toNat (i - loaded.toNat))
    (hfat : st'.fatBuf = st.fatBuf) (hlba : st'.fatBufLba = st.fatBufLba)
    (h : ClusterLoad cd fileSize n (lba + 1) (loaded + step) st' r) :
    ClusterLoad cd fileSize (n + 1) lba loaded st r := by
  refine ⟨?_, h.fatBuf.trans hfat, h.fatBufLba.trans hlba, h.failed, ?_, ?_⟩
  · intro i hi
    rw [h.outside i (by omega), hout i (by omega)]
  · intro l hl
    rw [h.reaches l hl]
    omega
  · intro l hl i hle hli
    by_cases hfirst : i < (loaded + step).toNat
    · have hdiv : (i - loaded.toNat) / 512 = 0 := by omega
      have hmod : (i - loaded.toNat) % 512 = i - loaded.toNat := by omega
      rw [h.outside i (.inl hfirst), hin i hle hfirst, hdiv, hmod, BitVec.add_zero]
    · have hfull : (loaded + step).toNat = loaded.toNat + 512 := by
        have := h.reaches l hl
        omega
      have hdiv : (i - loaded.toNat) / 512 = (i - (loaded + step).toNat) / 512 + 1 := by omega
      have hmod : (i - loaded.toNat) % 512 = (i - (loaded + step).toNat) % 512 := by omega
      rw [h.loads l hl i (not_lt.mp hfirst) hli, hdiv, hmod, add_one_ofNat]

theorem clusterLoad_stop (cd : Card) {fileSize loaded : Word} {n : Nat} (lba : Word) (st : State)
    (hle : loaded.toNat ≤ fileSize.toNat) (h : n = 0 ∨ fileSize.toNat ≤ loaded.toNat) :
    ClusterLoad cd fileSize n lba loaded st (some loaded, st) := by
  refine ⟨fun i _ => rfl, rfl, rfl, nofun, ?_, ?_⟩
  · intro l hl
    cases hl
    omega
  · intro l hl i hi hlt
    cases hl
    omega

theorem clusterLoad_failed {cd : Card} {fileSize loaded : Word} {n : Nat} {lba : Word}
    {st st' : State} (hfault : Faulty cd)
    (hout : ∀ i, i < loaded.toNat ∨ fileSize.toNat ≤ i → st'.dst i = st.dst i)
    (hfat : st'.fatBuf = st.fatBuf) (hlba : st'.fatBufLba = st.fatBufLba) :
    ClusterLoad cd fileSize n lba loaded st (none, st') :=
  ⟨hout, hfat, hlba, fun _ => hfault, nofun, nofun⟩

/-- A sector copied to its place, whole or cut at the file's end. -/
theorem clusterLoad_fill {cd : Card} {fileSize lba loaded step : Word} {n k : Nat} {st st' : State}
    {r : Option Word × State} (hlt : loaded.toNat < fileSize.toNat)
    (hk : (loaded + step).toNat = loaded.toNat + k)
    (hstep : (loaded + step).toNat = min fileSize.toNat (loaded.toNat + 512))
    (hdst : st'.dst = fill st.dst loaded.toNat k (cd.sector lba.toNat))
    (hfat : st'.fatBuf = st.fatBuf) (hlba : st'.fatBufLba = st.fatBufLba)
    (h : ClusterLoad cd fileSize n (lba + 1) (loaded + step) st' r) :
    ClusterLoad cd fileSize (n + 1) lba loaded st r := by
  refine clusterLoad_cons hlt hstep ?_ ?_ hfat hlba h
  · intro i hi
    rw [hdst]
    exact fill_outside st.dst _ (by omega)
  · intro i hle hi
    rw [hdst]
    exact fill_inside st.dst _ hle (by omega)

theorem add_sector_toNat {fileSize loaded : Word} (h : 512 ≤ fileSize.toNat - loaded.toNat) :
    (loaded + 512).toNat = loaded.toNat + 512 := by
  have hlt := fileSize.isLt
  rw [BitVec.toNat_add_of_lt]
  · rfl
  · change loaded.toNat + 512 < 2 ^ 32
    omega

theorem loadCluster_spec (cd : Card) (fileSize : Word) (n : Nat) (lba loaded : Word) (st : State)
    (h : loaded.toNat ≤ fileSize.toNat) :
    ClusterLoad cd fileSize n lba loaded st (loadCluster cd fileSize n lba loaded st) := by
  induction n generalizing lba loaded st with
  | zero => exact clusterLoad_stop cd lba st h (.inl rfl)
  | succ n ih =>
    rw [loadCluster]
    by_cases hlt : loaded < fileSize
    · rw [if_pos hlt]
      have hlt' : loaded.toNat < fileSize.toNat := hlt
      have hremain : (fileSize - loaded).toNat = fileSize.toNat - loaded.toNat :=
        BitVec.toNat_sub_of_le h
      by_cases hbig : fileSize - loaded ≥ 512
      · rw [if_pos hbig]
        have hbig' : 512 ≤ fileSize.toNat - loaded.toNat := hremain ▸ hbig
        have hsum := add_sector_toNat hbig'
        obtain ⟨hbad, hfault⟩ | hgood := readSector_cases cd st.reads lba
        · simp only [hbad, Bool.not_false, if_true]
          refine clusterLoad_failed hfault ?_ rfl rfl
          intro i hi
          exact fill_outside st.dst _ (by omega)
        · simp only [hgood, Bool.not_true, Bool.false_eq_true, if_false]
          have hwithin : (loaded + 512).toNat ≤ fileSize.toNat := by omega
          refine clusterLoad_fill hlt' hsum (by omega) ?_ ?_ ?_ (ih _ _ _ hwithin)
          · rfl
          · rfl
          · rfl
      · rw [if_neg hbig]
        have hsmall : (fileSize - loaded).toNat < 512 := not_le.mp hbig
        have hsum : (loaded + (fileSize - loaded)).toNat = fileSize.toNat := by
          rw [BitVec.add_comm, BitVec.sub_add_cancel]
        have hk : (loaded + (fileSize - loaded)).toNat =
            loaded.toNat + (fileSize - loaded).toNat := by omega
        obtain ⟨hbad, hfault⟩ | hgood := readSector_cases cd st.reads lba
        · simp only [readIo, hbad, Bool.not_false, if_true]
          exact clusterLoad_failed hfault (fun i _ => rfl) rfl rfl
        · simp only [readIo, hgood, Bool.not_true, Bool.false_eq_true, if_false]
          refine clusterLoad_fill hlt' hk (by omega) ?_ ?_ ?_ (ih _ _ _ hsum.le)
          · rfl
          · rfl
          · rfl
    · rw [if_neg hlt]
      exact clusterLoad_stop cd lba st h (.inr (not_lt.mp hlt))

def CacheOk (cd : Card) (st : State) : Prop :=
  st.fatBufLba = 0xFFFFFFFF ∨ st.fatBuf = cd.sector st.fatBufLba.toNat

theorem fatEntry_dst (cd : Card) (v : Volume) (cluster : Word) (st : State) :
    (fatEntry cd v cluster st).2.dst = st.dst := by
  unfold fatEntry
  split
  · rcases readSector_cases cd st.reads (fatLba v cluster) with ⟨hbad, -⟩ | hgood
    · simp only [hbad, Bool.not_false, if_true]
    · simp only [hgood, Bool.not_true, Bool.false_eq_true, if_false]
  · rfl

/-- A link is the one on the card, or the end of the chain behind a failed read. -/
theorem fatEntry_spec {cd : Card} {v : Volume} {cluster : Word} {st : State}
    (hcache : CacheOk cd st) (hlba : fatLba v cluster ≠ 0xFFFFFFFF) :
    ((fatEntry cd v cluster st).1 = (if v.isFat32 then 0x0FFFFFFF else 0xFFFF) ∧ Faulty cd) ∨
    ((fatEntry cd v cluster st).1 = fatCell v (cd.sector (fatLba v cluster).toNat) cluster ∧
      CacheOk cd (fatEntry cd v cluster st).2) := by
  unfold fatEntry
  by_cases hmiss : fatLba v cluster ≠ st.fatBufLba
  · rw [if_pos hmiss]
    rcases readSector_cases cd st.reads (fatLba v cluster) with ⟨hbad, hfault⟩ | hgood
    · simp only [hbad, Bool.not_false, if_true, true_and]
      exact .inl hfault
    · simp only [hgood, Bool.not_true, Bool.false_eq_true, if_false, true_and]
      exact .inr (.inr rfl)
  · rw [if_neg hmiss]
    rw [not_not] at hmiss
    have hbuf : st.fatBuf = cd.sector st.fatBufLba.toNat :=
      hcache.resolve_left (fun h => hlba (hmiss.trans h))
    refine .inr ⟨?_, hcache⟩
    rw [hbuf, hmiss]

section rounds
variable {cd : Card} {v : Volume} {fileSize cluster loaded : Word} {name11 : Nat → Byte}
  {scanned : Nat} {st st' : State}

/-- A round of load_chain whose cluster does not load. -/
theorem loadChain_failed (hrun : cluster < eoc v ∧ cluster ≥ 2 ∧ loaded < fileSize)
    (h : loadCluster cd fileSize v.sectorsPerCluster.toNat (clusterLba v cluster) loaded st =
      (none, st')) (f : Nat) :
    loadChain cd v fileSize (f + 1) cluster loaded st = some (none, st') := by
  rw [loadChain, if_pos hrun, h]

theorem loadChain_next {l : Word} (hrun : cluster < eoc v ∧ cluster ≥ 2 ∧ loaded < fileSize)
    (h : loadCluster cd fileSize v.sectorsPerCluster.toNat (clusterLba v cluster) loaded st =
      (some l, st')) (f : Nat) :
    loadChain cd v fileSize (f + 1) cluster loaded st =
      loadChain cd v fileSize f (fatEntry cd v cluster st').1 l (fatEntry cd v cluster st').2 := by
  rw [loadChain, if_pos hrun, h]

/-- A round of scan_chain that ends the search. -/
theorem scanChain_found {found : Find}
    (hrun : cluster < 0x0FFFFFF8 ∧ cluster ≥ 2 ∧ scanned < MAX_FAT32_ROOT_SECTORS)
    (h : scanCluster cd v name11 v.sectorsPerCluster.toNat (clusterLba v cluster) scanned st =
      (.inl found, st')) (f : Nat) :
    scanChain cd v name11 (f + 1) cluster scanned st = some (found, st') := by
  rw [scanChain, if_pos hrun, h]

theorem scanChain_next {s : Nat}
    (hrun : cluster < 0x0FFFFFF8 ∧ cluster ≥ 2 ∧ scanned < MAX_FAT32_ROOT_SECTORS)
    (h : scanCluster cd v name11 v.sectorsPerCluster.toNat (clusterLba v cluster) scanned st =
      (.inr s, st')) (f : Nat) :
    scanChain cd v name11 (f + 1) cluster scanned st =
      scanChain cd v name11 f (fatEntry cd v cluster st').1 s (fatEntry cd v cluster st').2 := by
  rw [scanChain, if_pos hrun, h]

end rounds

/-- Each round of the loop loads at least a byte, so it ends, and it stays below the file's end. -/
theorem loadChain_ends (cd : Card) {v : Volume} (fileSize : Word)
    (hv : 0 < v.sectorsPerCluster.toNat) (k : Nat) (cluster loaded : Word) (st : State)
    (hle : loaded.toNat ≤ fileSize.toNat) (hk : fileSize.toNat - loaded.toNat ≤ k) :
    ∃ r, (∀ fuel, k < fuel → loadChain cd v fileSize fuel cluster loaded st = some r) ∧
      ∀ i, fileSize.toNat ≤ i → r.2.dst i = st.dst i := by
  induction k generalizing cluster loaded st with
  | zero =>
    refine ⟨(some loaded, st), ?_, fun i _ => rfl⟩
    intro fuel hfuel
    obtain ⟨f, rfl⟩ := Nat.exists_eq_add_of_lt hfuel
    have hdone : ¬loaded < fileSize := by
      rw [BitVec.lt_def]
      omega
    exact if_neg (fun h => hdone h.2.2)
  | succ k ih =>
    by_cases hrun : cluster < eoc v ∧ cluster ≥ 2 ∧ loaded < fileSize
    · have hload := loadCluster_spec cd fileSize v.sectorsPerCluster.toNat (clusterLba v cluster)
        loaded st hle
      have hlt : loaded.toNat < fileSize.toNat := hrun.2.2
      generalize hcluster : loadCluster cd fileSize v.sectorsPerCluster.toNat
        (clusterLba v cluster) loaded st = r at hload
      obtain ⟨l, st'⟩ := r
      cases l with
      | none =>
        refine ⟨(none, st'), ?_, fun i hi => hload.outside i (.inr hi)⟩
        intro fuel hfuel
        obtain ⟨f, rfl⟩ := Nat.exists_eq_add_of_lt hfuel
        exact loadChain_failed hrun hcluster _
      | some l =>
        have hreach := hload.reaches l rfl
        obtain ⟨r, hr, hout⟩ := ih (fatEntry cd v cluster st').1 l (fatEntry cd v cluster st').2
          (by omega) (by omega)
        refine ⟨r, ?_, ?_⟩
        · intro fuel hfuel
          obtain ⟨f, rfl⟩ := Nat.exists_eq_add_of_lt hfuel
          exact (loadChain_next hrun hcluster _).trans (hr _ (by omega))
        · intro i hi
          rw [hout i hi, fatEntry_dst]
          exact hload.outside i (.inr hi)
    · refine ⟨(some loaded, st), ?_, fun i _ => rfl⟩
      intro fuel hfuel
      obtain ⟨f, rfl⟩ := Nat.exists_eq_add_of_lt hfuel
      exact if_neg hrun

structure Frame (st st' : State) : Prop where
  dst : st'.dst = st.dst
  fatBuf : st'.fatBuf = st.fatBuf
  fatBufLba : st'.fatBufLba = st.fatBufLba

theorem Frame.refl (st : State) : Frame st st := ⟨rfl, rfl, rfl⟩

theorem Frame.trans {st st' st'' : State} (h : Frame st st') (h' : Frame st' st'') :
    Frame st st'' :=
  ⟨h'.dst.trans h.dst, h'.fatBuf.trans h.fatBuf, h'.fatBufLba.trans h.fatBufLba⟩

theorem CacheOk.frame {cd : Card} {st st' : State} (h : CacheOk cd st) (hf : Frame st st') :
    CacheOk cd st' := by
  unfold CacheOk
  rw [hf.fatBuf, hf.fatBufLba]
  exact h

theorem readIo_frame (cd : Card) (lba : Word) (st : State) : Frame st (readIo cd lba st).2 :=
  ⟨rfl, rfl, rfl⟩

theorem readIo_cases (cd : Card) (lba : Word) (st : State) :
    (readIo cd lba st).1 = false ∧ Faulty cd ∨
      (readIo cd lba st).1 = true ∧ (readIo cd lba st).2.ioBuf = cd.sector lba.toNat := by
  unfold readIo
  rcases readSector_cases cd st.reads lba with hbad | hgood
  · exact .inl hbad
  · rw [hgood]
    exact .inr ⟨rfl, rfl⟩

theorem scanCluster_frame (cd : Card) (v : Volume) (name11 : Nat → Byte) (n : Nat) (lba : Word)
    (scanned : Nat) (st : State) :
    Frame st (scanCluster cd v name11 n lba scanned st).2 ∧
      ∀ s, (scanCluster cd v name11 n lba scanned st).1 = .inr s → s = scanned + n := by
  induction n generalizing lba scanned st with
  | zero =>
    refine ⟨Frame.refl st, ?_⟩
    intro s hs
    cases hs
    rfl
  | succ n ih =>
    rw [scanCluster]
    split
    · exact ⟨Frame.refl st, fun s hs => by cases hs⟩
    · simp only
      split
      · exact ⟨readIo_frame cd lba st, fun s hs => by cases hs⟩
      · split
        · exact ⟨readIo_frame cd lba st, fun s hs => by cases hs⟩
        · exact ⟨readIo_frame cd lba st, fun s hs => by cases hs⟩
        · obtain ⟨hframe, hcount⟩ := ih (lba + 1) (scanned + 1) (readIo cd lba st).2
          refine ⟨(readIo_frame cd lba st).trans hframe, ?_⟩
          intro s hs
          rw [hcount s hs]
          omega

theorem scanRoot_frame (cd : Card) (v : Volume) (name11 : Nat → Byte) (n : Nat) (lba : Word)
    (st : State) : Frame st (scanRoot cd v name11 n lba st).2 := by
  induction n generalizing lba st with
  | zero => exact Frame.refl st
  | succ n ih =>
    rw [scanRoot]
    split
    · exact readIo_frame cd lba st
    · split
      · exact readIo_frame cd lba st
      · exact readIo_frame cd lba st
      · exact (readIo_frame cd lba st).trans (ih (lba + 1) (readIo cd lba st).2)

/-- Each round of the loop spends part of the budget, so it ends on a cyclic chain too. -/
theorem scanChain_ends (cd : Card) {v : Volume} (name11 : Nat → Byte)
    (hv : 0 < v.sectorsPerCluster.toNat) (k : Nat) (cluster : Word) (scanned : Nat) (st : State)
    (hk : MAX_FAT32_ROOT_SECTORS - scanned ≤ k) :
    ∃ r, (∀ fuel, k < fuel → scanChain cd v name11 fuel cluster scanned st = some r) ∧
      r.2.dst = st.dst := by
  induction k generalizing cluster scanned st with
  | zero =>
    refine ⟨(.error (-7), st), ?_, rfl⟩
    intro fuel hfuel
    obtain ⟨f, rfl⟩ := Nat.exists_eq_add_of_lt hfuel
    exact if_neg (fun h => by omega)
  | succ k ih =>
    by_cases hrun : cluster < 0x0FFFFFF8 ∧ cluster ≥ 2 ∧ scanned < MAX_FAT32_ROOT_SECTORS
    · obtain ⟨hframe, hcount⟩ := scanCluster_frame cd v name11 v.sectorsPerCluster.toNat
        (clusterLba v cluster) scanned st
      generalize hcluster : scanCluster cd v name11 v.sectorsPerCluster.toNat
        (clusterLba v cluster) scanned st = r at hframe hcount
      obtain ⟨found, st'⟩ := r
      cases found with
      | inl found =>
        refine ⟨(found, st'), ?_, hframe.dst⟩
        intro fuel hfuel
        obtain ⟨f, rfl⟩ := Nat.exists_eq_add_of_lt hfuel
        exact scanChain_found hrun hcluster _
      | inr s =>
        have hs := hcount s rfl
        obtain ⟨r, hr, hdst⟩ := ih (fatEntry cd v cluster st').1 s (fatEntry cd v cluster st').2
          (by omega)
        refine ⟨r, ?_, ?_⟩
        · intro fuel hfuel
          obtain ⟨f, rfl⟩ := Nat.exists_eq_add_of_lt hfuel
          exact (scanChain_next hrun hcluster _).trans (hr _ (by omega))
        · rw [hdst, fatEntry_dst, hframe.dst]
    · refine ⟨(.error (-7), st), ?_, rfl⟩
      intro fuel hfuel
      obtain ⟨f, rfl⟩ := Nat.exists_eq_add_of_lt hfuel
      exact if_neg hrun

theorem findInRoot_ends (cd : Card) {v : Volume} (name11 : Nat → Byte) (st : State)
    (hv : 0 < v.sectorsPerCluster.toNat) :
    ∃ r, (∀ fuel, MAX_FAT32_ROOT_SECTORS < fuel → findInRoot cd fuel v name11 st = some r) ∧
      r.2.dst = st.dst := by
  unfold findInRoot
  cases v.isFat32 with
  | true =>
    simp only [if_true]
    exact scanChain_ends cd name11 hv MAX_FAT32_ROOT_SECTORS v.rootCluster 0 st le_rfl
  | false =>
    simp only [Bool.false_eq_true, if_false]
    exact ⟨_, fun fuel _ => rfl, (scanRoot_frame cd v name11 _ v.rootStartLba st).dst⟩

/-- A call that ends with this result, once it has fuel for the budget and for the bytes, and that
has written inside of the file alone. -/
structure Ends (run : Nat → Option Result) (maxBytes : Word) (st : State) (r : Result) : Prop where
  result : ∀ fuel, MAX_FAT32_ROOT_SECTORS + maxBytes.toNat < fuel → run fuel = some r
  inside : ∀ i, r.st.dst i ≠ st.dst i → i < r.fileSize.toNat ∧ r.fileSize ≤ maxBytes

theorem ends_unwritten {run : Nat → Option Result} {maxBytes : Word} {st : State} {r : Result}
    (hrun : ∀ fuel, MAX_FAT32_ROOT_SECTORS + maxBytes.toNat < fuel → run fuel = some r)
    (hdst : r.st.dst = st.dst) : Ends run maxBytes st r :=
  ⟨hrun, fun i hi => absurd (congrFun hdst i) hi⟩

theorem loadFound_ends (cd : Card) {v : Volume} (hv : 0 < v.sectorsPerCluster.toNat)
    (maxBytes : Word) (outSize : Option Word) (firstCluster fileSize : Word) (st : State) :
    ∃ r, Ends (fun fuel => loadFound cd fuel v maxBytes outSize firstCluster fileSize st)
      maxBytes st r := by
  unfold loadFound
  by_cases hbad : fileSize = 0 ∨ firstCluster < 2
  · exact ⟨_, ends_unwritten (fun fuel _ => if_pos hbad) rfl⟩
  · simp only [if_neg hbad]
    by_cases hbig : fileSize > maxBytes
    · exact ⟨_, ends_unwritten (fun fuel _ => if_pos hbig) rfl⟩
    · simp only [if_neg hbig]
      have hle : fileSize.toNat ≤ maxBytes.toNat := not_lt.mp hbig
      obtain ⟨⟨l, st'⟩, hr, hout⟩ := loadChain_ends cd fileSize hv fileSize.toNat firstCluster 0 st
        (Nat.zero_le _) (Nat.sub_le _ _)
      have hinside : ∀ i, st'.dst i ≠ st.dst i → i < fileSize.toNat ∧ fileSize ≤ maxBytes := by
        intro i hi
        refine ⟨?_, hle⟩
        by_contra hge
        exact hi (hout i (not_lt.mp hge))
      cases l with
      | none =>
        refine ⟨⟨-8, fileSize, outSize, st'⟩, ?_, hinside⟩
        intro fuel hfuel
        simp only [hr fuel (by omega)]
      | some l =>
        by_cases hshort : l ≠ fileSize
        · refine ⟨⟨-10, fileSize, outSize, st'⟩, ?_, hinside⟩
          intro fuel hfuel
          simp only [hr fuel (by omega), if_pos hshort]
        · refine ⟨⟨0, fileSize, outSize.map fun _ => fileSize, st'⟩, ?_, hinside⟩
          intro fuel hfuel
          simp only [hr fuel (by omega), if_neg hshort]

theorem loadFrom_ends (cd : Card) {v : Volume} (hv : 0 < v.sectorsPerCluster.toNat)
    (name11 : Nat → Byte) (maxBytes : Word) (outSize : Option Word) (st : State) :
    ∃ r, Ends (fun fuel => loadFrom cd fuel v name11 maxBytes outSize st) maxBytes st r := by
  obtain ⟨⟨found, st'⟩, hr, hdst⟩ := findInRoot_ends cd name11 st hv
  unfold loadFrom
  cases found with
  | error rc =>
    refine ⟨⟨rc, 0, outSize, st'⟩, ends_unwritten ?_ hdst⟩
    intro fuel hfuel
    simp only [hr fuel (by omega)]
  | ok found =>
    obtain ⟨firstCluster, fileSize⟩ := found
    obtain ⟨r, hends⟩ := loadFound_ends cd hv maxBytes outSize firstCluster fileSize st'
    refine ⟨r, ?_, fun i hi => hends.inside i (hdst ▸ hi)⟩
    intro fuel hfuel
    simp only [hr fuel (by omega)]
    exact hends.result fuel hfuel

theorem readVolume_clusters {partLba : Word} {bpb : Sector} {v : Volume}
    (h : readVolume partLba bpb = .ok v) : 0 < v.sectorsPerCluster.toNat := by
  unfold readVolume at h
  simp only at h
  split at h
  · cases h
  split at h
  · cases h
  rename_i hpower
  have hspc : (bpb 0x0D).setWidth 32 ≠ 0 := by
    intro hzero
    rw [hzero] at hpower
    exact hpower (.inl rfl)
  have hv : v.sectorsPerCluster = (bpb 0x0D).setWidth 32 := by
    split at h
    · cases h
    split at h
    · split at h
      · cases h
      · cases h
        rfl
    · split at h
      · cases h
      · cases h
        rfl
  rw [hv]
  exact toNat_pos hspc

theorem fatLoadFile_ends (cd : Card) (name11 : Nat → Byte) (maxBytes : Word)
    (outSize : Option Word) (st : State) :
    ∃ r, Ends (fun fuel => fatLoadFile cd fuel name11 maxBytes outSize st) maxBytes st r := by
  unfold fatLoadFile
  simp only
  split
  · exact ⟨_, ends_unwritten (fun fuel _ => rfl) rfl⟩
  split
  · exact ⟨_, ends_unwritten (fun fuel _ => rfl) rfl⟩
  split
  · exact ⟨_, ends_unwritten (fun fuel _ => rfl) rfl⟩
  split
  · exact ⟨_, ends_unwritten (fun fuel _ => rfl) rfl⟩
  split
  · exact ⟨_, ends_unwritten (fun fuel _ => rfl) rfl⟩
  · next v hv =>
    obtain ⟨r, hr⟩ := loadFrom_ends cd (readVolume_clusters hv) name11 maxBytes outSize _
    exact ⟨r, hr.result, hr.inside⟩

end AipcOs.Fat
