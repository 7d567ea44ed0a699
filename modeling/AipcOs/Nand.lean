import AipcOs.ByteMemory

/-! Loading an image from NAND across bad blocks. The sequencer and the ECC engine are an
oracle: what a block's marker and a corrected page read as, and which reads fail. -/
namespace AipcOs.Nand
open ByteMemory

def PAGE_SIZE : Nat := 2048
def PAGE_READ_TRIES : Nat := 4
def MAX_BAD_SKIP : Nat := 16
def NAND_ENOGEOM : Int := -7
def NAND_ELEN : Int := -9
def NAND_EBADRUN : Int := -10

/-- `raw` is the word at column 0x410 of a page, `page` the columns after correction. -/
structure Chip where
  raw : Word → Word
  page : Word → Nat → Byte

structure Fault where
  rc : Int
  nonzero : rc ≠ 0
  left : Nat → Byte

/-- The code of the n-th marker read, and the failing tries of the k-th page of the image. -/
structure Faults where
  marker : Nat → Int
  page : Nat → Nat → Option Fault

/-- `mem` is indexed from `dst`, and `out` is `dst + pages * PAGE_SIZE`. `visits` counts the
marker reads, `blocks` lists the blocks that were read into `dst`. -/
structure Load where
  mem : Nat → Byte
  pages : Nat
  remaining : Nat
  visits : Nat
  blocks : List Word

def putPage (m : Nat → Byte) (out : Nat) (p : Nat → Byte) : Nat → Byte :=
  fun i => if out ≤ i ∧ i < out + PAGE_SIZE then p (i - out) else m i

def readTries (c : Chip) (fault : Nat → Option Fault) (page : Word) (out : Nat) :
    Nat → Nat → Int → (Nat → Byte) → Int × (Nat → Byte)
  | 0, _, rc, m => (rc, m)
  | n + 1, t, _, m =>
    match fault t with
    | none => (0, putPage m out (c.page page))
    | some e => readTries c fault page out n (t + 1) e.rc (putPage m out e.left)

def nandReadPage (c : Chip) (fault : Nat → Option Fault) (page : Word) (out : Nat)
    (m : Nat → Byte) : Int × (Nat → Byte) :=
  readTries c fault page out PAGE_READ_TRIES 0 0 m

/-- The stored bad-block marker: column 0x411 of the first page of the block. -/
def marker (c : Chip) (ppb block : Word) : Word := (c.raw (block * ppb) >>> 8) &&& 0xFF

/-- A marker that cannot be read counts as a bad block. -/
def blockIsBad (c : Chip) (f : Faults) (ppb block : Word) (visit : Nat) : Bool :=
  if f.marker visit ≠ 0 then true else marker c ppb block != 0xFF

def Load.advance (s : Load) (block : Word) (m : Nat → Byte) : Load :=
  ⟨m, s.pages + 1, s.remaining - PAGE_SIZE, s.visits, block :: s.blocks⟩

def readBlock (c : Chip) (f : Faults) (block page : Word) : Nat → Nat → Load → Int × Load
  | 0, _, s => (0, s)
  | n + 1, p, s =>
    if s.remaining = 0 then (0, s)
    else
      let r := nandReadPage c (f.page s.pages) (page + BitVec.ofNat 32 p)
        (s.pages * PAGE_SIZE) s.mem
      if r.1 ≠ 0 then (r.1, { s with mem := r.2, blocks := block :: s.blocks })
      else readBlock c f block page n (p + 1) (s.advance block r.2)

theorem readBlock_remaining_le (c : Chip) (f : Faults) (block page : Word) (n p : Nat)
    (s : Load) : (readBlock c f block page n p s).2.remaining ≤ s.remaining := by
  induction n generalizing p s with
  | zero => simp [readBlock]
  | succ n ih =>
    simp only [readBlock]
    split
    · exact le_rfl
    · split
      · exact le_rfl
      · exact le_trans (ih _ _) (Nat.sub_le _ _)

theorem readBlock_remaining_lt (c : Chip) (f : Faults) (block page : Word) (n : Nat)
    (hn : n ≠ 0) (s : Load) (hs : s.remaining ≠ 0)
    (h : (readBlock c f block page n 0 s).1 = 0) :
    (readBlock c f block page n 0 s).2.remaining < s.remaining := by
  obtain ⟨n, rfl⟩ := Nat.exists_eq_succ_of_ne_zero hn
  simp only [readBlock, hs, if_false] at h ⊢
  split
  · next hrc =>
    rw [if_pos hrc] at h
    exact absurd h hrc
  · refine lt_of_le_of_lt (readBlock_remaining_le _ _ _ _ _ _ _) ?_
    exact Nat.sub_lt (Nat.pos_of_ne_zero hs) (by decide)

/-- The loop over the blocks. `block` is a `uint32_t` and wraps. -/
def loadBlocks (c : Chip) (f : Faults) (ppb : Word) (hppb : ppb ≠ 0) (block : Word)
    (skipped : Nat) (s : Load) : Int × Load :=
  if hs : s.remaining = 0 then (0, s)
  else if blockIsBad c f ppb block s.visits then
    if hk : skipped + 1 > MAX_BAD_SKIP then (NAND_EBADRUN, { s with visits := s.visits + 1 })
    else loadBlocks c f ppb hppb (block + 1) (skipped + 1) { s with visits := s.visits + 1 }
  else
    let r := readBlock c f block (block * ppb) ppb.toNat 0 { s with visits := s.visits + 1 }
    if hr : r.1 ≠ 0 then r
    else loadBlocks c f ppb hppb (block + 1) skipped r.2
termination_by s.remaining + (MAX_BAD_SKIP - skipped)
decreasing_by
  · simp only [MAX_BAD_SKIP] at hk ⊢
    omega
  · have hn : ppb.toNat ≠ 0 := (toNat_pos hppb).ne'
    have := readBlock_remaining_lt c f block (block * ppb) ppb.toNat hn
      { s with visits := s.visits + 1 } hs (not_not.mp hr)
    change r.2.remaining + _ < _
    have hlt : r.2.remaining < s.remaining := this
    omega

def nandLoadImage (c : Chip) (f : Faults) (ppb : Word) (dst : Nat → Byte)
    (start bytes : Word) : Int × Load :=
  if hppb : ppb = 0 then (NAND_ENOGEOM, ⟨dst, 0, bytes.toNat, 0, []⟩)
  else if bytes = 0 ∨ bytes &&& 0x7FF ≠ 0 then (NAND_ELEN, ⟨dst, 0, bytes.toNat, 0, []⟩)
  else loadBlocks c f ppb hppb start 0 ⟨dst, 0, bytes.toNat, 0, []⟩

/-- What `nand_read_page` returns: 0 when one of its tries reads, else the last error. -/
def pageRc (fault : Nat → Option Fault) : Int :=
  if ∃ t < PAGE_READ_TRIES, fault t = none then 0
  else (fault (PAGE_READ_TRIES - 1)).elim 0 (·.rc)

theorem putPage_outside (m : Nat → Byte) (out : Nat) (p : Nat → Byte) (i : Nat)
    (h : i < out ∨ out + PAGE_SIZE ≤ i) : putPage m out p i = m i :=
  if_neg (by omega)

theorem putPage_inside (m : Nat → Byte) (out : Nat) (p : Nat → Byte) (j : Nat)
    (h : j < PAGE_SIZE) : putPage m out p (out + j) = p j := by
  rw [putPage, if_pos (by omega), Nat.add_sub_cancel_left]

theorem readTries_spec (c : Chip) (fault : Nat → Option Fault) (page : Word) (out n t : Nat)
    (rc : Int) (m : Nat → Byte) :
    (∀ i, i < out ∨ out + PAGE_SIZE ≤ i → (readTries c fault page out n t rc m).2 i = m i) ∧
    ((∃ u < n, fault (t + u) = none) → (readTries c fault page out n t rc m).1 = 0 ∧
      ∀ j < PAGE_SIZE, (readTries c fault page out n t rc m).2 (out + j) = c.page page j) ∧
    ((∀ u < n, fault (t + u) ≠ none) → (readTries c fault page out n t rc m).1 =
      if n = 0 then rc else (fault (t + (n - 1))).elim 0 (·.rc)) := by
  induction n generalizing t rc m with
  | zero => simp [readTries]
  | succ n ih =>
    cases he : fault t with
    | none =>
      have hr : readTries c fault page out (n + 1) t rc m = (0, putPage m out (c.page page)) := by
        simp [readTries, he]
      rw [hr]
      refine ⟨fun i hi => putPage_outside m out _ i hi, fun _ => ⟨rfl, fun j hj => ?_⟩, ?_⟩
      · exact putPage_inside m out _ j hj
      · intro h
        exact absurd he (h 0 (Nat.succ_pos n))
    | some e =>
      have hr : readTries c fault page out (n + 1) t rc m =
          readTries c fault page out n (t + 1) e.rc (putPage m out e.left) := by
        simp [readTries, he]
      obtain ⟨hout, hok, hbad⟩ := ih (t + 1) e.rc (putPage m out e.left)
      rw [hr]
      refine ⟨fun i hi => (hout i hi).trans (putPage_outside m out _ i hi), ?_, ?_⟩
      · intro h
        obtain ⟨u, hu, hnone⟩ := h
        cases u with
        | zero => exact absurd hnone (by simp [he])
        | succ u => exact hok ⟨u, by omega, by rwa [Nat.add_assoc, Nat.add_comm 1 u]⟩
      · intro h
        have hrest : ∀ u < n, fault (t + 1 + u) ≠ none := by
          intro u hu
          rw [Nat.add_assoc, Nat.add_comm 1 u]
          exact h (u + 1) (by omega)
        rw [hbad hrest]
        cases n with
        | zero => simp [he]
        | succ n => simp [Nat.add_assoc, Nat.add_comm 1 n]

theorem nandReadPage_outside (c : Chip) (fault : Nat → Option Fault) (page : Word) (out : Nat)
    (m : Nat → Byte) (i : Nat) (hi : i < out ∨ out + PAGE_SIZE ≤ i) :
    (nandReadPage c fault page out m).2 i = m i :=
  (readTries_spec c fault page out PAGE_READ_TRIES 0 0 m).1 i hi

theorem nandReadPage_rc (c : Chip) (fault : Nat → Option Fault) (page : Word) (out : Nat)
    (m : Nat → Byte) : (nandReadPage c fault page out m).1 = pageRc fault := by
  have hspec := readTries_spec c fault page out PAGE_READ_TRIES 0 0 m
  simp only [Nat.zero_add] at hspec
  unfold pageRc
  split
  · next h => exact (hspec.2.1 h).1
  · next h =>
    push Not at h
    exact hspec.2.2 h

theorem pageRc_eq_zero (fault : Nat → Option Fault) :
    pageRc fault = 0 ↔ ∃ t < PAGE_READ_TRIES, fault t = none := by
  unfold pageRc
  split
  · next h => exact iff_of_true rfl h
  · next h =>
    refine iff_of_false ?_ h
    cases he : fault (PAGE_READ_TRIES - 1) with
    | none => exact absurd ⟨PAGE_READ_TRIES - 1, by decide, he⟩ h
    | some e => exact e.nonzero

theorem pageRc_of_fails {fault : Nat → Option Fault}
    (hfail : ¬ ∃ t < PAGE_READ_TRIES, fault t = none) {e : Fault}
    (he : fault (PAGE_READ_TRIES - 1) = some e) : pageRc fault = e.rc := by
  rw [pageRc, if_neg hfail, he]
  rfl

theorem nandReadPage_data (c : Chip) (fault : Nat → Option Fault) (page : Word) (out : Nat)
    (m : Nat → Byte) (h : pageRc fault = 0) (j : Nat) (hj : j < PAGE_SIZE) :
    (nandReadPage c fault page out m).2 (out + j) = c.page page j := by
  have hspec := readTries_spec c fault page out PAGE_READ_TRIES 0 0 m
  simp only [Nat.zero_add] at hspec
  exact (hspec.2.1 ((pageRc_eq_zero fault).mp h)).2 j hj

structure BlockRead (c : Chip) (f : Faults) (block page : Word) (n p q : Nat) (s : Load)
    (r : Int × Load) : Prop where
  visits : r.2.visits = s.visits
  blocks : ∀ b ∈ r.2.blocks, b = block ∨ b ∈ s.blocks
  frame : ∀ i, i < s.pages * PAGE_SIZE ∨ (s.pages + min n q) * PAGE_SIZE ≤ i →
    r.2.mem i = s.mem i
  result : (r.1 = 0 ∧ r.2.pages = s.pages + min n q ∧ r.2.remaining = (q - n) * PAGE_SIZE ∧
      ∀ k < min n q, pageRc (f.page (s.pages + k)) = 0 ∧ ∀ j < PAGE_SIZE,
        r.2.mem ((s.pages + k) * PAGE_SIZE + j) = c.page (page + BitVec.ofNat 32 (p + k)) j) ∨
    ∃ k < min n q, pageRc (f.page (s.pages + k)) ≠ 0 ∧ r.1 = pageRc (f.page (s.pages + k)) ∧
      ∀ l < k, pageRc (f.page (s.pages + l)) = 0

theorem blockRead_nothing (c : Chip) (f : Faults) (block page : Word) (n p q : Nat) (s : Load)
    (hq : s.remaining = (q - n) * PAGE_SIZE) (hmin : min n q = 0) :
    BlockRead c f block page n p q s (0, s) where
  visits := rfl
  blocks := fun b hb => Or.inr hb
  frame := fun _ _ => rfl
  result := Or.inl ⟨rfl, by rw [hmin]; rfl, hq, fun k hk => by omega⟩

/-- A page that reads, followed by the rest of the block. -/
theorem blockRead_advance {c : Chip} {f : Faults} {block page : Word} {n p q : Nat} {s : Load}
    {m : Nat → Byte} {r : Int × Load} (hrc : pageRc (f.page s.pages) = 0)
    (hout : ∀ i, i < s.pages * PAGE_SIZE ∨ s.pages * PAGE_SIZE + PAGE_SIZE ≤ i → m i = s.mem i)
    (hdata : ∀ j < PAGE_SIZE,
      m (s.pages * PAGE_SIZE + j) = c.page (page + BitVec.ofNat 32 p) j)
    (h : BlockRead c f block page n (p + 1) q (s.advance block m) r) :
    BlockRead c f block page (n + 1) p (q + 1) s r := by
  have hmin : min (n + 1) (q + 1) = min n q + 1 := by omega
  have hpages : (s.advance block m).pages = s.pages + 1 := rfl
  have hsucc : (s.pages + 1) * PAGE_SIZE = s.pages * PAGE_SIZE + PAGE_SIZE := Nat.succ_mul _ _
  have hfirst : ∀ j < PAGE_SIZE,
      r.2.mem (s.pages * PAGE_SIZE + j) = c.page (page + BitVec.ofNat 32 p) j := by
    intro j hj
    rw [h.frame _ (Or.inl (by rw [hpages, hsucc]; omega))]
    exact hdata j hj
  have hcase : ∀ k, k ≠ 0 → ∃ l, k = l + 1 ∧ s.pages + k = (s.advance block m).pages + l := by
    intro k hk
    exact ⟨k - 1, by omega, by rw [hpages]; omega⟩
  refine ⟨h.visits, ?_, ?_, ?_⟩
  · intro b hb
    rcases h.blocks b hb with hb | hb
    · exact Or.inl hb
    · exact List.mem_cons.mp hb
  · intro i hi
    have hle : (s.pages + 1) * PAGE_SIZE ≤ (s.pages + (min n q + 1)) * PAGE_SIZE :=
      Nat.mul_le_mul_right _ (by omega)
    rw [hmin] at hi
    have hmem : r.2.mem i = m i := h.frame i (by
      rw [hpages, hsucc, Nat.add_assoc s.pages 1, Nat.add_comm 1]
      omega)
    rw [hmem]
    exact hout i (by omega)
  · rcases h.result with ⟨h0, hp, hrem, hall⟩ | ⟨k, hk, hbad, hr, hl⟩
    · refine Or.inl ⟨h0, by rw [hp, hpages, hmin]; omega, ?_, ?_⟩
      · rw [hrem, Nat.add_sub_add_right]
      · intro k hk
        by_cases hk0 : k = 0
        · subst hk0
          exact ⟨hrc, hfirst⟩
        · obtain ⟨l, rfl, hkl⟩ := hcase k hk0
          rw [hkl, Nat.add_comm l 1, ← Nat.add_assoc]
          exact hall l (by omega)
    · refine Or.inr ⟨k + 1, by omega, ?_⟩
      obtain ⟨l, hl', hkl⟩ := hcase (k + 1) (Nat.succ_ne_zero k)
      obtain rfl : k = l := by omega
      rw [hkl]
      refine ⟨hbad, hr, ?_⟩
      intro l hlt
      by_cases hl0 : l = 0
      · subst hl0
        exact hrc
      · obtain ⟨l', rfl, hll⟩ := hcase l hl0
        rw [hll]
        exact hl l' (by omega)

theorem readBlock_spec (c : Chip) (f : Faults) (block page : Word) (n p q : Nat) (s : Load)
    (hq : s.remaining = q * PAGE_SIZE) :
    BlockRead c f block page n p q s (readBlock c f block page n p s) := by
  induction n generalizing p q s with
  | zero => exact blockRead_nothing c f block page 0 p q s hq (Nat.zero_min q)
  | succ n ih =>
    cases q with
    | zero =>
      have hr : readBlock c f block page (n + 1) p s = (0, s) := by
        simp [readBlock, hq]
      rw [hr]
      exact blockRead_nothing c f block page (n + 1) p 0 s (by simpa using hq) (Nat.min_zero _)
    | succ q =>
      have hs : s.remaining ≠ 0 := by
        rw [hq]
        exact Nat.mul_ne_zero (Nat.succ_ne_zero q) (by decide)
      have hout := nandReadPage_outside c (f.page s.pages) (page + BitVec.ofNat 32 p)
        (s.pages * PAGE_SIZE) s.mem
      by_cases hrc : pageRc (f.page s.pages) = 0
      · have hq' : s.remaining - PAGE_SIZE = q * PAGE_SIZE := by
          rw [hq, Nat.add_mul, Nat.one_mul, Nat.add_sub_cancel]
        have hstep : readBlock c f block page (n + 1) p s = readBlock c f block page n (p + 1)
            (s.advance block (nandReadPage c (f.page s.pages) (page + BitVec.ofNat 32 p)
              (s.pages * PAGE_SIZE) s.mem).2) := by
          simp [readBlock, hs, nandReadPage_rc, hrc]
        rw [hstep]
        exact blockRead_advance hrc hout (nandReadPage_data c _ _ _ _ hrc)
          (ih (p + 1) q _ hq')
      · have hstep : readBlock c f block page (n + 1) p s =
            (pageRc (f.page s.pages), { s with
              mem := (nandReadPage c (f.page s.pages) (page + BitVec.ofNat 32 p)
                (s.pages * PAGE_SIZE) s.mem).2, blocks := block :: s.blocks }) := by
          simp [readBlock, hs, nandReadPage_rc, hrc]
        rw [hstep]
        refine ⟨rfl, fun b hb => List.mem_cons.mp hb, ?_, Or.inr ⟨0, by omega, hrc, rfl, ?_⟩⟩
        · intro i hi
          have hle : (s.pages + 1) * PAGE_SIZE ≤ (s.pages + min (n + 1) (q + 1)) * PAGE_SIZE :=
            Nat.mul_le_mul_right _ (by omega)
          rw [Nat.succ_mul] at hle
          exact hout i (by omega)
        · intro l hl
          exact absurd hl (Nat.not_lt_zero l)

def GoodVisit (c : Chip) (f : Faults) (ppb start : Word) (i : Nat) : Prop :=
  blockIsBad c f ppb (start + BitVec.ofNat 32 i) i = false

instance (c : Chip) (f : Faults) (ppb start : Word) : DecidablePred (GoodVisit c f ppb start) :=
  fun _ => inferInstanceAs (Decidable (_ = _))

def HoldsPages (c : Chip) (ppb start : Word) (good : Nat → Prop) (n : Nat)
    (m : Nat → Byte) : Prop :=
  ∀ k < n, ∀ j < PAGE_SIZE, m (k * PAGE_SIZE + j) =
    c.page ((start + BitVec.ofNat 32 (Nat.nth good (k / ppb.toNat))) * ppb +
      BitVec.ofNat 32 (k % ppb.toNat)) j

/-- The loop head. `need` is the number of good blocks of the image, `total` of its pages. -/
structure Reached (c : Chip) (f : Faults) (ppb start : Word) (need total : Nat)
    (m : Nat → Byte) (block : Word) (skipped : Nat) (s : Load) : Prop where
  block_eq : block = start + BitVec.ofNat 32 s.visits
  skipped_eq : skipped = Nat.count (fun i => ¬ GoodVisit c f ppb start i) s.visits
  limit : skipped ≤ MAX_BAD_SKIP
  before : ∀ i < s.visits, Nat.count (GoodVisit c f ppb start) i < need
  pages_eq : s.pages = min (ppb.toNat * Nat.count (GoodVisit c f ppb start) s.visits) total
  remaining_eq : s.remaining = (total - s.pages) * PAGE_SIZE
  pages_read : ∀ k < s.pages, pageRc (f.page k) = 0
  image : HoldsPages c ppb start (GoodVisit c f ppb start) s.pages s.mem
  frame : ∀ i, s.pages * PAGE_SIZE ≤ i → s.mem i = m i
  blocks_good : ∀ b ∈ s.blocks, ∃ i, b = start + BitVec.ofNat 32 i ∧ GoodVisit c f ppb start i

inductive Ends (c : Chip) (f : Faults) (ppb start : Word) (need total : Nat)
    (r : Int × Load) : Prop where
  | done (rc : r.1 = 0)
      (met : Nat.count (GoodVisit c f ppb start) r.2.visits = need)
      (before : ∀ i < r.2.visits, Nat.count (GoodVisit c f ppb start) i < need)
      (limit : Nat.count (fun i => ¬ GoodVisit c f ppb start i) r.2.visits ≤ MAX_BAD_SKIP)
      (read : ∀ k < total, pageRc (f.page k) = 0)
      (image : HoldsPages c ppb start (GoodVisit c f ppb start) total r.2.mem)
  | pageFailed (k v : Nat) (lt : k < total) (bad : pageRc (f.page k) ≠ 0)
      (rc : r.1 = pageRc (f.page k)) (read : ∀ l < k, pageRc (f.page l) = 0)
      (good : GoodVisit c f ppb start v)
      (met : Nat.count (GoodVisit c f ppb start) v = k / ppb.toNat)
      (limit : Nat.count (fun i => ¬ GoodVisit c f ppb start i) v ≤ MAX_BAD_SKIP)
  | badRun (v : Nat) (rc : r.1 = NAND_EBADRUN) (bad : ¬ GoodVisit c f ppb start v)
      (limit : Nat.count (fun i => ¬ GoodVisit c f ppb start i) v = MAX_BAD_SKIP)
      (few : Nat.count (GoodVisit c f ppb start) v < need)
      (read : ∀ l < ppb.toNat * Nat.count (GoodVisit c f ppb start) v, pageRc (f.page l) = 0)

theorem next_block (start : Word) (v : Nat) :
    start + BitVec.ofNat 32 v + 1 = start + BitVec.ofNat 32 (v + 1) := by
  rw [BitVec.ofNat_add, ← BitVec.add_assoc]
  rfl

section Loop
variable {c : Chip} {f : Faults} {ppb start : Word} {need total : Nat} {m : Nat → Byte}
  {block : Word} {skipped : Nat} {s : Load}

theorem Reached.visit (h : Reached c f ppb start need total m block skipped s) :
    GoodVisit c f ppb start s.visits ↔ ¬ blockIsBad c f ppb block s.visits = true := by
  rw [h.block_eq, Bool.not_eq_true]
  rfl

theorem Reached.goods_lt (hneed : ∀ g, g < need ↔ ppb.toNat * g < total)
    (h : Reached c f ppb start need total m block skipped s) (hs : s.remaining ≠ 0) :
    Nat.count (GoodVisit c f ppb start) s.visits < need ∧
      s.pages = ppb.toNat * Nat.count (GoodVisit c f ppb start) s.visits := by
  have hlt : s.pages < total := by
    by_contra hle
    rw [h.remaining_eq, Nat.sub_eq_zero_of_le (not_lt.mp hle), Nat.zero_mul] at hs
    exact hs rfl
  rw [h.pages_eq] at hlt ⊢
  exact ⟨(hneed _).mpr (by omega), by omega⟩

theorem Reached.before_succ (h : Reached c f ppb start need total m block skipped s)
    (hlt : Nat.count (GoodVisit c f ppb start) s.visits < need) :
    ∀ i < s.visits + 1, Nat.count (GoodVisit c f ppb start) i < need := by
  intro i hi
  rcases Nat.lt_succ_iff_lt_or_eq.mp hi with hi | rfl
  · exact h.before i hi
  · exact hlt

theorem Reached.skip (hneed : ∀ g, g < need ↔ ppb.toNat * g < total)
    (h : Reached c f ppb start need total m block skipped s) (hs : s.remaining ≠ 0)
    (hbad : blockIsBad c f ppb block s.visits = true) (hk : ¬ skipped + 1 > MAX_BAD_SKIP) :
    Reached c f ppb start need total m (block + 1) (skipped + 1)
      { s with visits := s.visits + 1 } := by
  have hnot : ¬ GoodVisit c f ppb start s.visits := by rw [h.visit]; simpa using hbad
  refine { h with block_eq := ?_, skipped_eq := ?_, limit := not_lt.mp hk, before := ?_,
                  pages_eq := ?_ }
  · rw [h.block_eq]
    exact next_block start s.visits
  · rw [Nat.count_succ, if_pos hnot, h.skipped_eq]
  · exact h.before_succ (h.goods_lt hneed hs).1
  · rw [Nat.count_succ, if_neg hnot]
    exact h.pages_eq

/-- The block read at the loop head, and what is still to come after it. -/
theorem Reached.blockRead (hneed : ∀ g, g < need ↔ ppb.toNat * g < total)
    (h : Reached c f ppb start need total m block skipped s) (hs : s.remaining ≠ 0) :
    BlockRead c f block (block * ppb) ppb.toNat 0
      (total - ppb.toNat * Nat.count (GoodVisit c f ppb start) s.visits)
      { s with visits := s.visits + 1 }
      (readBlock c f block (block * ppb) ppb.toNat 0 { s with visits := s.visits + 1 }) := by
  refine readBlock_spec c f block (block * ppb) ppb.toNat 0 _ _ ?_
  rw [← (h.goods_lt hneed hs).2]
  exact h.remaining_eq

theorem Reached.blocks_read {r : Int × Load} {n p q : Nat} {page : Word}
    (h : Reached c f ppb start need total m block skipped s)
    (hgood : GoodVisit c f ppb start s.visits)
    (hr : BlockRead c f block page n p q { s with visits := s.visits + 1 } r) :
    ∀ b ∈ r.2.blocks, ∃ i, b = start + BitVec.ofNat 32 i ∧ GoodVisit c f ppb start i := by
  intro b hb
  rcases hr.blocks b hb with rfl | hb
  · exact ⟨s.visits, h.block_eq, hgood⟩
  · exact h.blocks_good b hb

/-- The image with `q` pages more, all of the block at the loop head. -/
theorem Reached.image_read (hppb : ppb ≠ 0)
    (h : Reached c f ppb start need total m block skipped s)
    (hpages : s.pages = ppb.toNat * Nat.count (GoodVisit c f ppb start) s.visits)
    (hgood : GoodVisit c f ppb start s.visits) {mem : Nat → Byte} {q : Nat} (hq : q ≤ ppb.toNat)
    (hframe : ∀ i < s.pages * PAGE_SIZE, mem i = s.mem i)
    (hdata : ∀ d < q, ∀ j < PAGE_SIZE, mem ((s.pages + d) * PAGE_SIZE + j) =
      c.page (block * ppb + BitVec.ofNat 32 d) j) :
    HoldsPages c ppb start (GoodVisit c f ppb start) (s.pages + q) mem := by
  have hpos := toNat_pos hppb
  intro k hk j hj
  by_cases hold : k < s.pages
  · rw [hframe]
    · exact h.image k hold j hj
    · calc k * PAGE_SIZE + j < (k + 1) * PAGE_SIZE := by rw [Nat.succ_mul]; omega
        _ ≤ s.pages * PAGE_SIZE := Nat.mul_le_mul_right _ hold
  · obtain ⟨d, rfl⟩ := Nat.exists_eq_add_of_le (not_lt.mp hold)
    have hd : d < ppb.toNat := by omega
    have hdiv : (s.pages + d) / ppb.toNat = Nat.count (GoodVisit c f ppb start) s.visits := by
      rw [hpages, Nat.mul_add_div hpos, Nat.div_eq_of_lt hd, Nat.add_zero]
    have hmod : (s.pages + d) % ppb.toNat = d := by
      rw [hpages, Nat.mul_add_mod, Nat.mod_eq_of_lt hd]
    rw [hdata d (by omega) j hj, hdiv, hmod, Nat.nth_count hgood, ← h.block_eq]

theorem Reached.read (hppb : ppb ≠ 0) (hneed : ∀ g, g < need ↔ ppb.toNat * g < total)
    (h : Reached c f ppb start need total m block skipped s) (hs : s.remaining ≠ 0)
    (hgood : GoodVisit c f ppb start s.visits) {r : Int × Load}
    (hr : BlockRead c f block (block * ppb) ppb.toNat 0
      (total - ppb.toNat * Nat.count (GoodVisit c f ppb start) s.visits)
      { s with visits := s.visits + 1 } r) (hrc : r.1 = 0) :
    Reached c f ppb start need total m (block + 1) skipped r.2 := by
  obtain ⟨hlt, hpages⟩ := h.goods_lt hneed hs
  have hg := (hneed _).mp hlt
  have hvisits : r.2.visits = s.visits + 1 := hr.visits
  rw [← hpages] at hr hg
  rcases hr.result with ⟨-, hp, hrem, hall⟩ | ⟨k, -, hbad, hrck, -⟩
  · have hp' : r.2.pages = s.pages + min ppb.toNat (total - s.pages) := hp
    have hmul : ppb.toNat * (Nat.count (GoodVisit c f ppb start) s.visits + 1) =
        s.pages + ppb.toNat := by rw [hpages, Nat.mul_succ]
    refine ⟨?_, ?_, h.limit, ?_, ?_, ?_, ?_, ?_, ?_, ?_⟩
    · rw [h.block_eq, hvisits]
      exact next_block start s.visits
    · rw [hvisits, Nat.count_succ, if_neg (not_not.mpr hgood)]
      exact h.skipped_eq
    · rw [hvisits]
      exact h.before_succ hlt
    · rw [hvisits, Nat.count_succ, if_pos hgood, hmul, hp']
      omega
    · rw [hrem, hp']
      congr 1
      omega
    · intro k hk
      by_cases hold : k < s.pages
      · exact h.pages_read k hold
      · obtain ⟨d, rfl⟩ := Nat.exists_eq_add_of_le (not_lt.mp hold)
        exact (hall d (by omega)).1
    · rw [hp']
      refine h.image_read hppb hpages hgood (Nat.min_le_left _ _) (fun i hi => hr.frame i (.inl hi)) ?_
      intro d hd j hj
      have hdata := (hall d hd).2 j hj
      rwa [Nat.zero_add] at hdata
    · intro i hi
      rw [hp'] at hi
      have hle : s.pages * PAGE_SIZE ≤ (s.pages + min ppb.toNat (total - s.pages)) * PAGE_SIZE :=
        Nat.mul_le_mul_right _ (Nat.le_add_right _ _)
      rw [hr.frame i (.inr hi)]
      exact h.frame i (by omega)
    · exact h.blocks_read hgood hr
  · exact absurd (hrck.symm.trans hrc) hbad

theorem Reached.pageFailed (hneed : ∀ g, g < need ↔ ppb.toNat * g < total)
    (h : Reached c f ppb start need total m block skipped s) (hs : s.remaining ≠ 0)
    (hgood : GoodVisit c f ppb start s.visits) {r : Int × Load}
    (hr : BlockRead c f block (block * ppb) ppb.toNat 0
      (total - ppb.toNat * Nat.count (GoodVisit c f ppb start) s.visits)
      { s with visits := s.visits + 1 } r) (hrc : r.1 ≠ 0) :
    Ends c f ppb start need total r := by
  obtain ⟨hlt, hpages⟩ := h.goods_lt hneed hs
  rcases hr.result with ⟨h0, -⟩ | ⟨k, hk, hbad, hrck, hbefore⟩
  · exact absurd h0 hrc
  · rw [← hpages] at hk
    refine .pageFailed (s.pages + k) s.visits (by omega) hbad hrck ?_ hgood ?_
      (h.skipped_eq ▸ h.limit)
    · intro l hl
      by_cases hold : l < s.pages
      · exact h.pages_read l hold
      · have hl' := hbefore (l - s.pages) (by omega)
        have heq : s.pages + (l - s.pages) = l := by omega
        exact heq ▸ hl'
    · rw [hpages, Nat.mul_add_div (by omega), Nat.div_eq_of_lt (by omega), Nat.add_zero]

theorem Reached.done (hneed : ∀ g, g < need ↔ ppb.toNat * g < total)
    (h : Reached c f ppb start need total m block skipped s) (hs : s.remaining = 0) :
    Ends c f ppb start need total (0, s) := by
  have hpages : s.pages = total := by
    have hle : s.pages ≤ total := by rw [h.pages_eq]; exact Nat.min_le_right _ _
    have hprod := h.remaining_eq
    rw [hs] at hprod
    rcases Nat.mul_eq_zero.mp hprod.symm with h0 | h0
    · omega
    · exact absurd h0 (by decide)
  have hle : need ≤ Nat.count (GoodVisit c f ppb start) s.visits := by
    by_contra hlt
    have := (hneed _).mp (not_le.mp hlt)
    have := h.pages_eq
    omega
  have hge : Nat.count (GoodVisit c f ppb start) s.visits ≤ need := by
    cases hv : s.visits with
    | zero => simp
    | succ v =>
      have := h.before v (by omega)
      rw [Nat.count_succ]
      split <;> omega
  exact .done rfl (le_antisymm hge hle) h.before (h.skipped_eq ▸ h.limit)
    (hpages ▸ h.pages_read) (hpages ▸ h.image)

theorem Reached.badRun (hneed : ∀ g, g < need ↔ ppb.toNat * g < total)
    (h : Reached c f ppb start need total m block skipped s) (hs : s.remaining ≠ 0)
    (hbad : blockIsBad c f ppb block s.visits = true) (hk : skipped + 1 > MAX_BAD_SKIP) :
    Ends c f ppb start need total (NAND_EBADRUN, { s with visits := s.visits + 1 }) := by
  obtain ⟨hlt, hpages⟩ := h.goods_lt hneed hs
  refine .badRun s.visits rfl ?_ ?_ hlt (hpages ▸ h.pages_read)
  · rw [h.visit]
    exact not_not.mpr hbad
  · have := h.limit
    rw [← h.skipped_eq]
    omega

/-- Behind the image memory is as it was. -/
theorem Reached.outside (h : Reached c f ppb start need total m block skipped s) {i : Nat}
    (hi : total * PAGE_SIZE ≤ i) : s.mem i = m i := by
  refine h.frame i (le_trans (Nat.mul_le_mul_right _ ?_) hi)
  rw [h.pages_eq]
  exact Nat.min_le_right _ _

theorem Reached.read_outside (hneed : ∀ g, g < need ↔ ppb.toNat * g < total)
    (h : Reached c f ppb start need total m block skipped s) (hs : s.remaining ≠ 0)
    {r : Int × Load} (hr : BlockRead c f block (block * ppb) ppb.toNat 0
      (total - ppb.toNat * Nat.count (GoodVisit c f ppb start) s.visits)
      { s with visits := s.visits + 1 } r) {i : Nat} (hi : total * PAGE_SIZE ≤ i) :
    r.2.mem i = m i := by
  obtain ⟨hlt, hpages⟩ := h.goods_lt hneed hs
  have hle := (hneed _).mp hlt
  rw [← hpages] at hr hle
  have hend : (s.pages + min ppb.toNat (total - s.pages)) * PAGE_SIZE ≤ total * PAGE_SIZE :=
    Nat.mul_le_mul_right _ (by omega)
  exact (hr.frame i (Or.inr (le_trans hend hi))).trans (h.outside hi)

/-- Every load ends in one of the three ways, and touches only the image. -/
theorem loadBlocks_ends (hppb : ppb ≠ 0) (hneed : ∀ g, g < need ↔ ppb.toNat * g < total)
    (h : Reached c f ppb start need total m block skipped s) :
    Ends c f ppb start need total (loadBlocks c f ppb hppb block skipped s) ∧
    (∀ i, total * PAGE_SIZE ≤ i → (loadBlocks c f ppb hppb block skipped s).2.mem i = m i) ∧
    ∀ b ∈ (loadBlocks c f ppb hppb block skipped s).2.blocks,
      ∃ i, b = start + BitVec.ofNat 32 i ∧ GoodVisit c f ppb start i := by
  fun_induction loadBlocks c f ppb hppb block skipped s with
  | case1 block skipped s hs => exact ⟨h.done hneed hs, fun i => h.outside, h.blocks_good⟩
  | case2 block skipped s hs hbad hk =>
    exact ⟨h.badRun hneed hs hbad hk, fun i => h.outside, h.blocks_good⟩
  | case3 block skipped s hs hbad hk ih => exact ih (h.skip hneed hs hbad hk)
  | case4 block skipped s hs hbad r hr =>
    have hgood := h.visit.mpr hbad
    have hread := h.blockRead hneed hs
    exact ⟨h.pageFailed hneed hs hgood hread hr, fun i => h.read_outside hneed hs hread,
      h.blocks_read hgood hread⟩
  | case5 block skipped s hs hbad r hr ih =>
    have hgood := h.visit.mpr hbad
    exact ih (h.read hppb hneed hs hgood (h.blockRead hneed hs) (not_not.mp hr))

end Loop

def blocksNeeded (ppb bytes : Word) : Nat := bytes.toNat ⌈/⌉ (ppb.toNat * PAGE_SIZE)

/-- Fewer than 17 bad blocks come before the good blocks that the image needs. -/
def Enough (good : Nat → Prop) [DecidablePred good] (need : Nat) : Prop :=
  ∃ v, Nat.count good v = need ∧ Nat.count (fun i => ¬ good i) v < MAX_BAD_SKIP + 1

def PageReads (f : Faults) (k : Nat) : Prop := ∃ t < PAGE_READ_TRIES, f.page k t = none

theorem page_aligned_iff (bytes : Word) : bytes &&& 0x7FF ≠ 0 ↔ ¬ PAGE_SIZE ∣ bytes.toNat := by
  have hand : (bytes &&& 0x7FF#32).toNat = bytes.toNat % 2048 := by
    rw [BitVec.toNat_and]
    exact Nat.and_two_pow_sub_one_eq_mod bytes.toNat 11
  rw [not_iff_not, Nat.dvd_iff_mod_eq_zero, PAGE_SIZE, ← hand]
  exact BitVec.toNat_eq.trans Iff.rfl

theorem lt_blocksNeeded {ppb bytes : Word} (hppb : ppb ≠ 0) (hmul : PAGE_SIZE ∣ bytes.toNat)
    (g : Nat) : g < blocksNeeded ppb bytes ↔ ppb.toNat * g < bytes.toNat / PAGE_SIZE := by
  have hpos := toNat_pos hppb
  have hsize : 0 < PAGE_SIZE := by decide
  obtain ⟨t, ht⟩ := hmul
  have hcomm : ppb.toNat * PAGE_SIZE * g = PAGE_SIZE * (ppb.toNat * g) := by ring
  rw [← not_le, ← not_le, not_iff_not, blocksNeeded, ceilDiv_le_iff_le_mul (by positivity), ht,
    Nat.mul_div_cancel_left t hsize, hcomm]
  exact Nat.mul_le_mul_left_iff hsize

theorem nandLoadImage_ends (c : Chip) (f : Faults) {ppb : Word} (dst : Nat → Byte) (start : Word)
    {bytes : Word} (hppb : ppb ≠ 0) (hbytes : bytes ≠ 0) (hmul : PAGE_SIZE ∣ bytes.toNat) :
    let r := nandLoadImage c f ppb dst start bytes
    Ends c f ppb start (blocksNeeded ppb bytes) (bytes.toNat / PAGE_SIZE) r ∧
    (∀ i, bytes.toNat ≤ i → r.2.mem i = dst i) ∧
    ∀ b ∈ r.2.blocks, ∃ i, b = start + BitVec.ofNat 32 i ∧ GoodVisit c f ppb start i := by
  have hcond : ¬ (bytes = 0 ∨ bytes &&& 0x7FF ≠ 0) := by
    rw [page_aligned_iff]
    tauto
  have hinit : Reached c f ppb start (blocksNeeded ppb bytes) (bytes.toNat / PAGE_SIZE) dst
      start 0 ⟨dst, 0, bytes.toNat, 0, []⟩ := by
    refine ⟨by simp, by simp, Nat.zero_le _, by simp, by simp, ?_, by simp, ?_, ?_, by simp⟩
    · exact (Nat.div_mul_cancel hmul).symm
    · intro k hk
      exact absurd hk (Nat.not_lt_zero k)
    · exact fun i _ => rfl
  have hends := loadBlocks_ends hppb (lt_blocksNeeded hppb hmul) hinit
  rw [Nat.div_mul_cancel hmul] at hends
  simpa only [nandLoadImage, hppb, hcond, dif_neg, if_false, not_false_eq_true] using hends

section Ends
variable {c : Chip} {f : Faults} {ppb start : Word} {need total : Nat} {r : Int × Load}

/-- A bad block that comes before the last good block that is needed counts against it. -/
theorem count_bad_le {good : Nat → Prop} [DecidablePred good] {v w : Nat} (hbad : ¬ good v)
    (hw : Nat.count good v < Nat.count good w ∨ good w ∧ Nat.count good v ≤ Nat.count good w) :
    Nat.count (fun i => ¬ good i) v + 1 ≤ Nat.count (fun i => ¬ good i) w := by
  have hvw : v < w := by
    rcases hw with hlt | ⟨hgood, hle⟩
    · exact Nat.lt_of_count_lt_count hlt
    · by_contra hge
      rcases Nat.lt_or_eq_of_le (not_lt.mp hge) with hlt | rfl
      · exact absurd (Nat.count_strict_mono hgood hlt) (not_lt.mpr hle)
      · exact hbad hgood
  have hmono := Nat.count_monotone (fun i => ¬ good i) (Nat.succ_le_of_lt hvw)
  rwa [Nat.succ_eq_add_one, Nat.count_succ, if_pos hbad] at hmono

theorem Ends.ok_iff (h : Ends c f ppb start need total r) :
    r.1 = 0 ↔ Enough (GoodVisit c f ppb start) need ∧ ∀ k < total, PageReads f k := by
  cases h with
  | done rc met before limit read image =>
    refine iff_of_true rc ⟨⟨r.2.visits, met, Nat.lt_succ_of_le limit⟩, fun k hk => ?_⟩
    exact (pageRc_eq_zero _).mp (read k hk)
  | pageFailed k v lt bad rc read good met limit =>
    refine iff_of_false (rc ▸ bad) (fun hall => bad ?_)
    exact (pageRc_eq_zero _).mpr (hall.2 k lt)
  | badRun v rc bad limit few read =>
    refine iff_of_false (by rw [rc]; decide) ?_
    intro hboth
    obtain ⟨⟨w, hmet, hlimit⟩, -⟩ := hboth
    have := count_bad_le bad (w := w) (Or.inl (hmet ▸ few))
    omega

theorem Ends.of_ok (h : Ends c f ppb start need total r) (h0 : r.1 = 0) :
    Nat.count (GoodVisit c f ppb start) r.2.visits = need ∧
    (∀ i < r.2.visits, Nat.count (GoodVisit c f ppb start) i < need) ∧
    HoldsPages c ppb start (GoodVisit c f ppb start) total r.2.mem := by
  cases h with
  | done rc met before limit read image => exact ⟨met, before, image⟩
  | pageFailed k v lt bad rc read good met limit => exact absurd (rc.symm.trans h0) bad
  | badRun v rc bad limit few read => exact absurd (rc.symm.trans h0) (by decide)

/-- A page that fails lies behind every block that was read. -/
theorem le_block_of_fails (hppb : ppb ≠ 0) {g k : Nat} (hread : ∀ l < ppb.toNat * g, PageReads f l)
    (hfail : ¬ PageReads f k) : g ≤ k / ppb.toNat := by
  have hpos := toNat_pos hppb
  rw [Nat.le_div_iff_mul_le hpos, Nat.mul_comm]
  by_contra hlt
  exact hfail (hread k (not_le.mp hlt))

theorem Ends.page_error (hppb : ppb ≠ 0) (h : Ends c f ppb start need total r) {k v : Nat}
    (hk : k < total)
    (hread : ∀ l < k, PageReads f l) (hfail : ¬ PageReads f k)
    (hgood : GoodVisit c f ppb start v)
    (hmet : Nat.count (GoodVisit c f ppb start) v = k / ppb.toNat)
    (hlimit : Nat.count (fun i => ¬ GoodVisit c f ppb start i) v < MAX_BAD_SKIP + 1) :
    r.1 = pageRc (f.page k) := by
  have hbad : pageRc (f.page k) ≠ 0 := fun h0 => hfail ((pageRc_eq_zero _).mp h0)
  cases h with
  | done rc met before limit read image => exact absurd (read k hk) hbad
  | pageFailed l w lt bad rc read good met limit =>
    rcases lt_trichotomy l k with hlt | rfl | hlt
    · exact absurd ((pageRc_eq_zero _).mpr (hread l hlt)) bad
    · exact rc
    · exact absurd (read k hlt) hbad
  | badRun w rc bad limit few read =>
    have hle : Nat.count (GoodVisit c f ppb start) w ≤ k / ppb.toNat :=
      le_block_of_fails hppb (fun l hl => (pageRc_eq_zero _).mp (read l hl)) hfail
    have := count_bad_le bad (w := v) (Or.inr ⟨hgood, hmet ▸ hle⟩)
    omega

theorem Ends.bad_run (hppb : ppb ≠ 0) (h : Ends c f ppb start need total r) {v : Nat}
    (hbad : ¬ GoodVisit c f ppb start v)
    (hlimit : Nat.count (fun i => ¬ GoodVisit c f ppb start i) v = MAX_BAD_SKIP)
    (hfew : Nat.count (GoodVisit c f ppb start) v < need)
    (hread : ∀ l < ppb.toNat * Nat.count (GoodVisit c f ppb start) v, PageReads f l) :
    r.1 = NAND_EBADRUN := by
  cases h with
  | done rc met before limit read image =>
    have := count_bad_le hbad (w := r.2.visits) (Or.inl (met ▸ hfew))
    omega
  | pageFailed l w lt bad rc read good met limit =>
    have hle : Nat.count (GoodVisit c f ppb start) v ≤ Nat.count (GoodVisit c f ppb start) w :=
      met ▸ le_block_of_fails hppb hread (fun hok => bad ((pageRc_eq_zero _).mpr hok))
    have := count_bad_le hbad (w := w) (Or.inr ⟨good, hle⟩)
    omega
  | badRun w rc bad limit few read => exact rc

end Ends

def StoredGood (c : Chip) (ppb start : Word) (i : Nat) : Prop :=
  marker c ppb (start + BitVec.ofNat 32 i) = 0xFF

instance (c : Chip) (ppb start : Word) : DecidablePred (StoredGood c ppb start) :=
  fun _ => inferInstanceAs (Decidable (_ = _))

theorem goodVisit_iff (c : Chip) (f : Faults) (ppb start : Word) (i : Nat) :
    GoodVisit c f ppb start i ↔ f.marker i = 0 ∧ StoredGood c ppb start i := by
  unfold GoodVisit blockIsBad StoredGood
  split
  · next h => simp [h]
  · next h => simp [not_not.mp h]

theorem count_congr {p q : Nat → Prop} [DecidablePred p] [DecidablePred q] {n : Nat}
    (h : ∀ i < n, p i ↔ q i) : Nat.count p n = Nat.count q n :=
  le_antisymm (Nat.count_mono_left fun i hi => (h i hi).mp)
    (Nat.count_mono_left fun i hi => (h i hi).mpr)

theorem nth_congr {p q : Nat → Prop} [DecidablePred p] [DecidablePred q] {n j : Nat}
    (h : ∀ i < n, p i ↔ q i) (hj : j < Nat.count p n) : Nat.nth p j = Nat.nth q j := by
  have hlt := Nat.nth_lt_of_lt_count hj
  have hcard : ∀ hf : (Set.ofPred p).Finite, j < hf.toFinset.card :=
    fun hf => lt_of_lt_of_le hj (Nat.count_le_card hf n)
  have hcount : Nat.count q (Nat.nth p j) = j := by
    rw [← count_congr (fun i hi => h i (lt_trans hi hlt)), Nat.count_nth hcard]
  have hq : q (Nat.nth p j) := (h _ hlt).mp (Nat.nth_mem j hcard)
  calc Nat.nth p j = Nat.nth q (Nat.count q (Nat.nth p j)) := (Nat.nth_count hq).symm
    _ = Nat.nth q j := by rw [hcount]

/-- `nand_load_image` puts the image together across the bad blocks. -/
theorem nandLoadImage_reassembles (c : Chip) (f : Faults) (ppb : Word) (dst : Nat → Byte)
    (start bytes : Word) (hppb : ppb ≠ 0) (hbytes : 0 < bytes.toNat)
    (hmul : PAGE_SIZE ∣ bytes.toNat) (hmarker : ∀ i, f.marker i = 0) :
    let good := StoredGood c ppb start
    let need := bytes.toNat ⌈/⌉ (ppb.toNat * PAGE_SIZE)
    let total := bytes.toNat / PAGE_SIZE
    let r := nandLoadImage c f ppb dst start bytes
    (r.1 = 0 ↔ (∃ v, Nat.count good v = need ∧ Nat.count (fun i => ¬ good i) v < 17) ∧
      ∀ k < total, ∃ t < 4, f.page k t = none) ∧
    (r.1 = 0 → HoldsPages c ppb start good total r.2.mem) ∧
    (∀ i, bytes.toNat ≤ i → r.2.mem i = dst i) ∧
    (∀ b ∈ r.2.blocks, marker c ppb b = 0xFF) ∧
    (∀ v, ¬ good v → Nat.count (fun i => ¬ good i) v = 16 → Nat.count good v < need →
      (∀ k < ppb.toNat * Nat.count good v, ∃ t < 4, f.page k t = none) → r.1 = NAND_EBADRUN) ∧
    (∀ k < total, ∀ v, good v → Nat.count good v = k / ppb.toNat →
      Nat.count (fun i => ¬ good i) v < 17 → (∀ l < k, ∃ t < 4, f.page l t = none) →
      (∀ t < 4, f.page k t ≠ none) → ∀ e, f.page k 3 = some e → r.1 = e.rc) := by
  intro good need total r
  have hne : bytes ≠ 0 := by
    intro heq
    obtain rfl := heq
    exact absurd hbytes (lt_irrefl 0)
  have hgood : ∀ i, GoodVisit c f ppb start i ↔ good i := by
    intro i
    rw [goodVisit_iff]
    exact and_iff_right (hmarker i)
  have hcount : ∀ n, Nat.count (GoodVisit c f ppb start) n = Nat.count good n :=
    fun n => count_congr fun i _ => hgood i
  have hbad : ∀ n, Nat.count (fun i => ¬ GoodVisit c f ppb start i) n =
      Nat.count (fun i => ¬ good i) n :=
    fun n => count_congr fun i _ => not_congr (hgood i)
  obtain ⟨hends, hframe, hblocks⟩ := nandLoadImage_ends c f dst start hppb hne hmul
  refine ⟨?_, ?_, hframe, ?_, ?_, ?_⟩
  · rw [hends.ok_iff, Enough]
    simp only [hcount, hbad]
    rfl
  · intro h0
    have heq : GoodVisit c f ppb start = good := funext fun i => propext (hgood i)
    exact heq ▸ (hends.of_ok h0).2.2
  · intro b hb
    obtain ⟨i, rfl, hi⟩ := hblocks b hb
    exact (hgood i).mp hi
  · intro v hv hlimit hfew hread
    refine hends.bad_run hppb (v := v) ?_ ?_ ?_ ?_
    · rwa [hgood]
    · rw [hbad]
      exact hlimit
    · rw [hcount]
      exact hfew
    · rw [hcount]
      exact hread
  · intro k hk v hv hmet hlimit hread hfail e he
    have hnot : ¬ PageReads f k := by
      intro hex
      obtain ⟨t, ht, hnone⟩ := hex
      exact hfail t ht hnone
    rw [hends.page_error hppb hk hread hnot ((hgood v).mpr hv) (by rw [hcount]; exact hmet)
      (by rw [hbad]; exact hlimit)]
    exact pageRc_of_fails hnot he

def patchyChip : Chip :=
  ⟨fun p => if p = 2 then 0 else 0xFF00, fun p j => p.setWidth 8 + BitVec.ofNat 8 j⟩

def retriedPage : Faults :=
  ⟨fun _ => 0, fun k t => if k = 1 ∧ t = 0 then some ⟨-1, by decide, fun _ => 0⟩ else none⟩

/-- Three pages, from the first block and the third. -/
theorem nandLoadImage_sample :
    let r := nandLoadImage patchyChip retriedPage 2 (fun _ => 0) 0 6144
    r.1 = 0 ∧ HoldsPages patchyChip 2 0 (StoredGood patchyChip 2 0) 3 r.2.mem ∧
      ∀ b ∈ r.2.blocks, b ≠ 1 := by
  intro r
  have h := nandLoadImage_reassembles patchyChip retriedPage 2 (fun _ => 0) 0 6144 (by decide)
    (by decide) (by decide) (fun _ => rfl)
  have hread : ∀ k < 3, ∃ t < 4, retriedPage.page k t = none :=
    fun k _ => ⟨1, by decide, if_neg fun hk => absurd hk.2 (by decide)⟩
  have hrc : r.1 = 0 := h.1.mpr ⟨⟨3, by decide, by decide⟩, hread⟩
  refine ⟨hrc, h.2.1 hrc, fun b hb hone => ?_⟩
  have hmarker := h.2.2.2.1 b hb
  rw [hone] at hmarker
  exact absurd hmarker (by decide)

def Completes (c : Chip) (f : Faults) (ppb start bytes : Word) : Prop :=
  ppb ≠ 0 ∧ bytes ≠ 0 ∧ PAGE_SIZE ∣ bytes.toNat ∧
    Enough (GoodVisit c f ppb start) (blocksNeeded ppb bytes) ∧
    ∀ k < bytes.toNat / PAGE_SIZE, PageReads f k

theorem nandLoadImage_ok_iff (c : Chip) (f : Faults) (ppb : Word) (dst : Nat → Byte)
    (start bytes : Word) :
    (nandLoadImage c f ppb dst start bytes).1 = 0 ↔ Completes c f ppb start bytes := by
  by_cases hppb : ppb = 0
  · refine iff_of_false ?_ (fun h => h.1 hppb)
    simp [nandLoadImage, hppb, NAND_ENOGEOM]
  · by_cases hlen : bytes = 0 ∨ bytes &&& 0x7FF ≠ 0
    · refine iff_of_false ?_ ?_
      · simp only [nandLoadImage, dif_neg hppb, if_pos hlen]
        decide
      · intro hboth
        obtain ⟨-, hne, hmul, -⟩ := hboth
        rcases hlen with h0 | h0
        · exact hne h0
        · exact (page_aligned_iff bytes).mp h0 hmul
    · rw [not_or, page_aligned_iff, not_not] at hlen
      rw [(nandLoadImage_ends c f dst start hppb hlen.1 hlen.2).1.ok_iff]
      exact ⟨fun h => ⟨hppb, hlen.1, hlen.2, h⟩, fun h => h.2.2.2⟩

/-- As long as no marker read fails, the visits that read as good are the stored ones. -/
theorem goodVisit_iff_stored {c : Chip} {f : Faults} {ppb start : Word} {n : Nat}
    (h : ∀ i < n, f.marker i = 0) :
    ∀ i < n, GoodVisit c f ppb start i ↔ StoredGood c ppb start i := by
  intro i hi
  rw [goodVisit_iff]
  exact and_iff_right (h i hi)

theorem markers_read {c : Chip} {f : Faults} {ppb start : Word} {need n : Nat}
    (hbefore : ∀ i < n, Nat.count (GoodVisit c f ppb start) i < need)
    (h : ∀ i, Nat.count (StoredGood c ppb start) i < need → f.marker i = 0) :
    ∀ i < n, f.marker i = 0 := by
  intro i
  induction i using Nat.strong_induction_on with
  | _ i ih =>
    intro hi
    have hprev : ∀ k < i, f.marker k = 0 := fun k hk => ih k hk (lt_trans hk hi)
    apply h
    rw [← count_congr (goodVisit_iff_stored hprev)]
    exact hbefore i hi

/-- A load that returns 0 holds the blocks stored as good, and no read it made was lost. -/
def ReadsTold (c : Chip) (f : Faults) (ppb start bytes : Word) (r : Int × Load) : Prop :=
  r.1 = 0 → HoldsPages c ppb start (StoredGood c ppb start) (bytes.toNat / PAGE_SIZE) r.2.mem ∧
    (∀ i < r.2.visits, f.marker i = 0) ∧ ∀ k < bytes.toNat / PAGE_SIZE, PageReads f k

theorem nandLoadImage_told_iff (c : Chip) (f : Faults) (ppb : Word) (dst : Nat → Byte)
    (start bytes : Word) :
    ReadsTold c f ppb start bytes (nandLoadImage c f ppb dst start bytes) ↔
      (Completes c f ppb start bytes →
        ∀ i, Nat.count (StoredGood c ppb start) i < blocksNeeded ppb bytes → f.marker i = 0) := by
  unfold ReadsTold
  rw [nandLoadImage_ok_iff]
  refine forall_congr' fun hok => ?_
  have hok' := hok
  obtain ⟨hppb, hne, hmul, -, hread⟩ := hok'
  obtain ⟨hends, -, -⟩ := nandLoadImage_ends c f dst start hppb hne hmul
  obtain ⟨hmet, hbefore, himage⟩ :=
    hends.of_ok ((nandLoadImage_ok_iff c f ppb dst start bytes).mpr hok)
  constructor
  · intro hboth i hi
    obtain ⟨-, hmarkers, -⟩ := hboth
    apply hmarkers
    by_contra hge
    have hmono := Nat.count_monotone (StoredGood c ppb start) (not_lt.mp hge)
    rw [← count_congr (goodVisit_iff_stored hmarkers), hmet] at hmono
    omega
  · intro hmarkers
    have hvisited := markers_read hbefore hmarkers
    refine ⟨?_, hvisited, hread⟩
    intro k hk j hj
    rw [himage k hk j hj, nth_congr (goodVisit_iff_stored hvisited) ?_]
    rw [hmet, lt_blocksNeeded hppb hmul]
    exact lt_of_le_of_lt (Nat.mul_div_le k _) hk

def sampleChip (word : Word) : Chip := ⟨fun _ => word, fun p j => p.setWidth 8 + BitVec.ofNat 8 j⟩

/-- The marker of block 0 cannot be read, and the image comes out as block 1. -/
theorem nandLoadImage_shifts :
    ¬ ∀ (c : Chip) (f : Faults) (ppb : Word) (dst : Nat → Byte) (start bytes : Word),
      ReadsTold c f ppb start bytes (nandLoadImage c f ppb dst start bytes) := by
  intro hall
  let f : Faults := ⟨fun i => if i = 0 then -1 else 0, fun _ _ => none⟩
  have hok : Completes (sampleChip 0xFF00) f 1 0 2048 := by
    refine ⟨by decide, by decide, by decide, ⟨2, by decide, by decide⟩, ?_⟩
    intro k _
    exact ⟨0, by decide, rfl⟩
  have hrc := (nandLoadImage_ok_iff (sampleChip 0xFF00) f 1 (fun _ => 0) 0 2048).mpr hok
  have hstored := (hall (sampleChip 0xFF00) f 1 (fun _ => 0) 0 2048 hrc).1 0 (by decide) 0
    (by decide)
  have hends := (nandLoadImage_ends (sampleChip 0xFF00) f (fun _ => 0) 0 hok.1 hok.2.1
    hok.2.2.1).1
  have hread := (hends.of_ok hrc).2.2 0 (by decide) 0 (by decide)
  have hfirst : Nat.nth (StoredGood (sampleChip 0xFF00) 1 0) 0 = 0 :=
    Nat.nth_count (p := StoredGood (sampleChip 0xFF00) 1 0) (n := 0) (by decide)
  have hsecond : Nat.nth (GoodVisit (sampleChip 0xFF00) f 1 0) 0 = 1 :=
    Nat.nth_count (p := GoodVisit (sampleChip 0xFF00) f 1 0) (n := 1) (by decide)
  rw [hread, Nat.zero_div, hfirst, hsecond] at hstored
  exact absurd hstored (by decide)

end AipcOs.Nand
