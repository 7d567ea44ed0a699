import AipcOs.StorageSave

/-! aipc-boot/storage.c: storage_read. FatFs reads a file through its cluster chain; the fast path
reads the same sectors from the card in runs of contiguous clusters, with addresses from the
cluster link map. -/
namespace AipcOs.Storage
open ByteMemory

def SD_BLOCKS_MAX : Nat := 1024

/-- Words of the static link map: two for each run, and two more. -/
def CLMT_WORDS : Nat := 512

structure Volume where
  csize : Nat
  database : Nat
  card : Nat → Byte

/-- An open file. `runs` is its cluster chain as runs of contiguous clusters (length, first
cluster); `cltbl` says that f->cltbl points to the link map. -/
structure Fil where
  size : Nat
  runs : List (Nat × Nat)
  pos : Nat
  cltbl : Bool

def clusterAt : List (Nat × Nat) → Nat → Option Nat
  | [], _ => none
  | (len, top) :: runs, k => if k < len then some (top + k) else clusterAt runs (k - len)

def sectorAt (v : Volume) (runs : List (Nat × Nat)) (s : Nat) : Option Nat :=
  (clusterAt runs (s / v.csize)).map fun cl => v.database + (cl - 2) * v.csize + s % v.csize

def byteAt (v : Volume) (f : Fil) (i : Nat) : Byte :=
  match sectorAt v f.runs (i / 512) with
  | some lba => v.card (lba * 512 + i % 512)
  | none => 0

def slice (v : Volume) (f : Fil) (pos n : Nat) : List Byte :=
  (List.range n).map fun i => byteAt v f (pos + i)

def fRead (v : Volume) (f : Fil) (len : Nat) : List Byte × Fil :=
  let n := min len (f.size - f.pos)
  (slice v f f.pos n, { f with pos := f.pos + n })

def fLseek (f : Fil) (ofs : Nat) : Fil := { f with pos := min (ofs % 2 ^ 32) f.size }

def createLinkmap (f : Fil) : Fil :=
  { f with cltbl := f.cltbl || decide (2 + 2 * f.runs.length ≤ CLMT_WORDS) }

structure Read where
  rc : Int
  data : List Byte
  file : Fil
  single : Bool

def readSlow (v : Volume) (f : Fil) (single : Bool) (data : List Byte) (len : Nat) : Read :=
  let (got, f') := fRead v f len
  ⟨if got.length ≠ len then STORAGE_EIO else 0, data ++ got, f', single⟩

/-- The sector at cluster `cl` and sector `pos` in it, and the sectors from there to the end of its
run. -/
def runFrom (v : Volume) : List (Nat × Nat) → Nat → Nat → Nat × Nat
  | [], _, _ => (0, 0)
  | (len, top) :: runs, cl, pos =>
    if cl < len then (v.database + (top + cl - 2) * v.csize + pos, (len - cl) * v.csize - pos)
    else runFrom v runs (cl - len) pos

def runAt (v : Volume) (f : Fil) : Nat × Nat :=
  runFrom v f.runs (f.pos / 512 / v.csize) (f.pos / 512 % v.csize)

/-- What sd_read_blocks returns; after an error, whether card_start() gets the card back. -/
inductive Chunk where
  | ok
  | noCmd23
  | failed (restarted : Bool)
  deriving DecidableEq

def rawRead (v : Volume) (lba n : Nat) : List Byte :=
  (List.range (n * 512)).map fun i => v.card (lba * 512 + i)

def chunkLen (v : Volume) (f : Fil) (len : Nat) : Nat :=
  min (min (runAt v f).2 (len / 512)) SD_BLOCKS_MAX

/-- The loop of storage_read and its last read_slow. `io` gives the results of the multi-block
reads in turn. Each turn reads at least a sector, so the sectors of `len` bound the turns. -/
def readLoop (v : Volume) : Nat → List Chunk → Fil → Bool → List Byte → Nat → Read
  | 0, _, f, single, data, len => readSlow v f single data len
  | fuel + 1, io, f, single, data, len =>
    if len < 512 then readSlow v f single data len
    else
      let n := chunkLen v f len
      if n = 0 then ⟨ STORAGE_EIO, data, f, single⟩
      else
        match io.headD .ok with
        | .noCmd23 => readSlow v f true data len
        | .failed false => ⟨ STORAGE_EIO, data, f, single⟩
        | .failed true => readSlow v f single data len
        | .ok =>
          readLoop v fuel io.tail (fLseek f (f.pos + n * 512)) single
            (data ++ rawRead v (runAt v f).1 n) (len - n * 512)

def headLen (f : Fil) : Nat := (512 - f.pos % 512) % 512

def fast (f : Fil) (single : Bool) (dst len : Nat) : Bool :=
  decide (headLen f ≤ len) && (createLinkmap f).cltbl && !single && (dst + headLen f) % 64 == 0

def storageRead (v : Volume) (io : List Chunk) (f : Fil) (single : Bool) (dst len : Nat) : Read :=
  let head := if fast f single dst len then headLen f else len
  let r := readSlow v (createLinkmap f) single [] head
  if r.rc ≠ 0 then { r with rc := STORAGE_EIO }
  else readLoop v ((len - head) / 512) io r.file single r.data (len - head)

def clusters (runs : List (Nat × Nat)) : Nat := (runs.map Prod.fst).sum

def room (v : Volume) (f : Fil) : Nat := clusters f.runs * v.csize * 512

/-- A file as FatFs keeps it: nonempty runs of data clusters that cover the size. -/
structure Fil.Valid (v : Volume) (f : Fil) : Prop where
  csize : 0 < v.csize
  runs : ∀ r ∈ f.runs, 1 ≤ r.1 ∧ 2 ≤ r.2
  covers : f.size ≤ room v f
  pos : f.pos ≤ f.size
  size : f.size < 2 ^ 32

/-- Sector `i` after cluster `cl` and sector `pos` in it, by whole clusters. -/
theorem sector_split (csize cl pos i : Nat) (hc : 0 < csize) :
    (cl * csize + pos + i) / csize = cl + (pos + i) / csize ∧
      (cl * csize + pos + i) % csize = (pos + i) % csize := by
  have hsum : cl * csize + pos + i = pos + i + csize * cl := by
    rw [Nat.mul_comm csize cl]
    omega
  rw [hsum, Nat.add_mul_div_left _ _ hc, Nat.add_mul_mod_self_left]
  exact ⟨Nat.add_comm _ _, rfl⟩

theorem clusterAt_skip (len top : Nat) (runs : List (Nat × Nat)) (k : Nat) (h : ¬ k < len) :
    clusterAt ((len, top) :: runs) k = clusterAt runs (k - len) := by
  rw [clusterAt, if_neg h]

theorem sectorAt_head (v : Volume) (runs : List (Nat × Nat)) (hc : 0 < v.csize)
    {cl e top pos i : Nat} (htop : 2 ≤ top) (hi : pos + i < e * v.csize) :
    sectorAt v ((cl + e, top) :: runs) (cl * v.csize + pos + i) =
      some (v.database + (top + cl - 2) * v.csize + pos + i) := by
  obtain ⟨hdiv, hmod⟩ := sector_split v.csize cl pos i hc
  have hq : (pos + i) / v.csize < e := (Nat.div_lt_iff_lt_mul hc).mpr hi
  have hsplit := Nat.div_add_mod (pos + i) v.csize
  rw [sectorAt, hdiv, hmod]
  clear hdiv hmod
  generalize (pos + i) / v.csize = q at hq hsplit ⊢
  have htop' : top + (cl + q) - 2 = top + cl - 2 + q := by omega
  rw [clusterAt, if_pos (by omega), Option.map_some, htop', Nat.add_mul, Nat.mul_comm q v.csize]
  congr 1
  omega

/-- Sectors behind the first run. -/
theorem sectorAt_skip (v : Volume) (runs : List (Nat × Nat)) (hc : 0 < v.csize)
    (len top k pos i : Nat) :
    sectorAt v ((len, top) :: runs) ((len + k) * v.csize + pos + i) =
      sectorAt v runs (k * v.csize + pos + i) := by
  obtain ⟨hdiv, hmod⟩ := sector_split v.csize (len + k) pos i hc
  obtain ⟨hdiv', hmod'⟩ := sector_split v.csize k pos i hc
  rw [sectorAt, sectorAt, hdiv, hmod, hdiv', hmod']
  clear hdiv hmod hdiv' hmod'
  generalize (pos + i) / v.csize = q
  have hbehind : ¬len + k + q < len := by omega
  have hskip : len + k + q - len = k + q := by omega
  rw [clusterAt_skip _ _ _ _ hbehind, hskip]

/-- What run_at finds inside the chain: at least one sector, every sector where FatFs has it, and
none behind the chain. -/
theorem runFrom_spec (v : Volume) (runs : List (Nat × Nat)) (cl pos : Nat) (hc : 0 < v.csize)
    (hruns : ∀ r ∈ runs, 1 ≤ r.1 ∧ 2 ≤ r.2) (hcl : cl < clusters runs) (hpos : pos < v.csize) :
    0 < (runFrom v runs cl pos).2 ∧
    (∀ i < (runFrom v runs cl pos).2,
      sectorAt v runs (cl * v.csize + pos + i) = some ((runFrom v runs cl pos).1 + i)) ∧
    cl * v.csize + pos + (runFrom v runs cl pos).2 ≤ clusters runs * v.csize := by
  induction runs generalizing cl with
  | nil => exact absurd hcl (Nat.not_lt_zero cl)
  | cons r runs ih =>
    obtain ⟨len, top⟩ := r
    have htop := (hruns (len, top) List.mem_cons_self).2
    have htotal : clusters ((len, top) :: runs) = len + clusters runs := by simp [clusters]
    rw [htotal] at hcl ⊢
    by_cases hlt : cl < len
    · rw [runFrom, if_pos hlt]
      obtain ⟨e, rfl⟩ : ∃ e, len = cl + e := ⟨len - cl, by omega⟩
      have hroom : v.csize ≤ e * v.csize := Nat.le_mul_of_pos_left _ (by omega)
      simp only [Nat.add_sub_cancel_left]
      refine ⟨by omega, ?_, ?_⟩
      · intro i hi
        exact sectorAt_head v runs hc htop (by omega)
      · rw [Nat.add_mul, Nat.add_mul]
        omega
    · obtain ⟨k, rfl⟩ : ∃ k, cl = len + k := ⟨cl - len, by omega⟩
      rw [runFrom, if_neg hlt, Nat.add_sub_cancel_left]
      obtain ⟨hpos', hsec, hend⟩ := ih k (fun r hr => hruns r (List.mem_cons_of_mem _ hr)) (by omega)
      refine ⟨hpos', ?_, ?_⟩
      · intro i hi
        rw [sectorAt_skip v runs hc]
        exact hsec i hi
      · rw [Nat.add_mul, Nat.add_mul]
        omega

/-- Behind the chain it finds nothing. -/
theorem runFrom_end (v : Volume) (runs : List (Nat × Nat)) (cl pos : Nat)
    (hcl : clusters runs ≤ cl) (hruns : ∀ r ∈ runs, 1 ≤ r.1 ∧ 2 ≤ r.2) :
    (runFrom v runs cl pos).2 = 0 := by
  induction runs generalizing cl with
  | nil => rfl
  | cons r runs ih =>
    obtain ⟨len, top⟩ := r
    have htotal : clusters ((len, top) :: runs) = len + clusters runs := by simp [clusters]
    rw [htotal] at hcl
    rw [runFrom, if_neg (by omega)]
    exact ih _ (by omega) fun r hr => hruns r (List.mem_cons_of_mem _ hr)

section positions
variable {v : Volume} {f : Fil}

theorem pos_sector (v : Volume) (f : Fil) :
    f.pos / 512 / v.csize * v.csize + f.pos / 512 % v.csize = f.pos / 512 := by
  rw [Nat.mul_comm]
  exact Nat.div_add_mod _ _

theorem cluster_lt (hv : f.Valid v) (h : f.pos < room v f) :
    f.pos / 512 / v.csize < clusters f.runs := by
  rw [Nat.div_lt_iff_lt_mul hv.csize, Nat.div_lt_iff_lt_mul (by omega)]
  exact h

/-- The spec of run_at at a position inside the chain. -/
theorem runAt_spec (hv : f.Valid v) (h : f.pos < room v f) :
    0 < (runAt v f).2 ∧
    (∀ i < (runAt v f).2, sectorAt v f.runs (f.pos / 512 + i) = some ((runAt v f).1 + i)) ∧
    f.pos / 512 * 512 + (runAt v f).2 * 512 ≤ room v f := by
  obtain ⟨h1, h2, h3⟩ := runFrom_spec v f.runs (f.pos / 512 / v.csize) (f.pos / 512 % v.csize)
    hv.csize hv.runs (cluster_lt hv h) (Nat.mod_lt _ hv.csize)
  rw [pos_sector] at h2 h3
  refine ⟨h1, h2, ?_⟩
  rw [← Nat.add_mul]
  exact Nat.mul_le_mul_right 512 h3

theorem runAt_end (hv : f.Valid v) (h : room v f ≤ f.pos) : (runAt v f).2 = 0 := by
  apply runFrom_end _ _ _ _ _ hv.runs
  rw [Nat.le_div_iff_mul_le hv.csize, Nat.le_div_iff_mul_le (by omega)]
  exact h

/-- The sectors that the fast path reads are those of the file. -/
theorem rawRead_slice (hv : f.Valid v) (h : f.pos < room v f) (hal : f.pos % 512 = 0) (n : Nat)
    (hn : n ≤ (runAt v f).2) : rawRead v (runAt v f).1 n = slice v f f.pos (n * 512) := by
  obtain ⟨-, hsec, -⟩ := runAt_spec hv h
  apply List.map_congr_left
  intro i hi
  rw [List.mem_range] at hi
  have hdiv : (f.pos + i) / 512 = f.pos / 512 + i / 512 := by omega
  have hmod : (f.pos + i) % 512 = i % 512 := by omega
  have hlba := hsec (i / 512) (by omega)
  have hsplit : ((runAt v f).1 + i / 512) * 512 + i % 512 = (runAt v f).1 * 512 + i := by omega
  rw [byteAt, hdiv, hlba, hmod, ← hsplit]

theorem slice_append (v : Volume) (f : Fil) (pos a b : Nat) :
    slice v f pos (a + b) = slice v f pos a ++ slice v f (pos + a) b := by
  simp [slice, List.range_add, Nat.add_assoc]

theorem readSlow_within (single : Bool) (data : List Byte) (len : Nat)
    (h : f.pos + len ≤ f.size) :
    readSlow v f single data len =
      ⟨0, data ++ slice v f f.pos len, { f with pos := f.pos + len }, single⟩ := by
  have hn : min len (f.size - f.pos) = len := by omega
  have hlen : (slice v f f.pos len).length = len := by simp [slice]
  simp [readSlow, fRead, hn, hlen]

theorem readSlow_short (single : Bool) (data : List Byte) (len : Nat) (hpos : f.pos ≤ f.size)
    (h : f.size < f.pos + len) : (readSlow v f single data len).rc = STORAGE_EIO := by
  have hlen : (slice v f f.pos (min len (f.size - f.pos))).length ≠ len := by
    simp only [slice, List.length_map, List.length_range]
    omega
  simp [readSlow, fRead, hlen]

theorem chunkLen_le (v : Volume) (f : Fil) (len : Nat) :
    chunkLen v f len ≤ (runAt v f).2 ∧ chunkLen v f len * 512 ≤ len := by
  unfold chunkLen
  constructor <;> omega

theorem chunkLen_pos (hv : f.Valid v) (h : f.pos < room v f) (len : Nat) (hlen : 512 ≤ len) :
    0 < chunkLen v f len := by
  obtain ⟨hpos, -⟩ := runAt_spec hv h
  have hmax : SD_BLOCKS_MAX = 1024 := rfl
  unfold chunkLen
  omega

theorem fLseek_valid (hv : f.Valid v) (ofs : Nat) : (fLseek f ofs).Valid v :=
  ⟨hv.csize, hv.runs, hv.covers, min_le_right _ _, hv.size⟩

theorem headD_mem {io : List Chunk} {c : Chunk} (h : io.headD .ok = c) (hc : c ≠ .ok) : c ∈ io := by
  cases io with
  | nil => exact absurd h.symm hc
  | cons x io =>
    subst h
    exact List.mem_cons_self

/-- Inside the file the loop returns 0, and at a sector boundary it reads what f_read would,
wherever it falls back. -/
theorem readLoop_within (fuel : Nat) (io : List Chunk) (f : Fil) (hv : f.Valid v) (single : Bool)
    (data : List Byte) (len : Nat) (h : f.pos + len ≤ f.size) (hio : ∀ c ∈ io, c ≠ .failed false) :
    (readLoop v fuel io f single data len).rc = 0 ∧
      (f.pos % 512 = 0 →
        (readLoop v fuel io f single data len).data = data ++ slice v f f.pos len) ∧
      (readLoop v fuel io f single data len).file.pos = f.pos + len := by
  induction fuel generalizing io f data len with
  | zero =>
    rw [readLoop, readSlow_within _ _ _ h]
    exact ⟨rfl, fun _ => rfl, rfl⟩
  | succ fuel ih =>
    rw [readLoop]
    split
    · rw [readSlow_within _ _ _ h]
      exact ⟨rfl, fun _ => rfl, rfl⟩
    · rename_i hlen
      have hcovers := hv.covers
      have hsize := hv.size
      have hroom : f.pos < room v f := by omega
      have hn := chunkLen_pos hv hroom len (by omega)
      obtain ⟨hrun, hle⟩ := chunkLen_le v f len
      simp only [if_neg hn.ne']
      generalize chunkLen v f len = n at hn hrun hle ⊢
      cases hc : io.headD .ok with
      | noCmd23 =>
        simp only
        rw [readSlow_within _ _ _ h]
        exact ⟨rfl, fun _ => rfl, rfl⟩
      | failed restarted =>
        cases restarted with
        | false => exact absurd rfl (hio _ (headD_mem hc (by decide)))
        | true =>
          simp only
          rw [readSlow_within _ _ _ h]
          exact ⟨rfl, fun _ => rfl, rfl⟩
      | ok =>
        have hpos : (fLseek f (f.pos + n * 512)).pos = f.pos + n * 512 := by
          simp only [fLseek]
          omega
        obtain ⟨h1, h2, h3⟩ := ih io.tail (fLseek f (f.pos + n * 512)) (fLseek_valid hv _)
          (data ++ rawRead v (runAt v f).1 n) (len - n * 512)
          (by rw [hpos]; change _ ≤ f.size; omega) (fun c hc => hio c (List.mem_of_mem_tail hc))
        refine ⟨h1, fun hal => (h2 (by omega)).trans ?_, h3.trans (by omega)⟩
        rw [rawRead_slice hv hroom hal n hrun, hpos, List.append_assoc]
        congr 1
        have hsum : len = n * 512 + (len - n * 512) := by omega
        conv_rhs => rw [hsum, slice_append]
        rfl

/-- The multi-block reads of the loop when none of them fails, up to one that carries the position
past 32 bits, and whether there is such a one. -/
def walk (v : Volume) : Nat → Fil → Nat → Nat × Bool
  | 0, _, _ => (0, false)
  | fuel + 1, f, len =>
    let n := chunkLen v f len
    if len < 512 ∨ n = 0 then (0, false)
    else if 2 ^ 32 ≤ f.pos + n * 512 then (1, true)
    else
      let w := walk v fuel (fLseek f (f.pos + n * 512)) (len - n * 512)
      (w.1 + 1, w.2)

theorem take_ok {io : List Chunk} (count : Nat) (h : io.headD .ok = .ok) :
    (∀ c ∈ io.take (count + 1), c = .ok) ↔ ∀ c ∈ io.tail.take count, c = .ok := by
  cases io with
  | nil => simp
  | cons x io =>
    have hx : x = .ok := h
    simp [hx]

theorem take_bad {io : List Chunk} (count : Nat) {c : Chunk} (h : io.headD .ok = c) (hc : c ≠ .ok) :
    ¬ ∀ c ∈ io.take (count + 1), c = .ok := by
  cases io with
  | nil => exact absurd h.symm hc
  | cons x io =>
    have hx : x = c := h
    intro hall
    exact hc (hx ▸ hall x (by simp))

/-- No multi-block read fails; and the position passes 32 bits, or the rest of the request is whole
sectors of which the loop finds some behind the end of the file. -/
def RunsThrough (v : Volume) (fuel : Nat) (io : List Chunk) (f : Fil) (len : Nat) : Prop :=
  ((walk v fuel f len).2 = true ∨ len % 512 = 0 ∧ (len = 0 ∨ f.size < room v f)) ∧
    ∀ c ∈ io.take (walk v fuel f len).1, c = .ok

theorem walk_short (fuel : Nat) (f : Fil) {len : Nat} (h : len < 512) :
    walk v fuel f len = (0, false) := by
  cases fuel with
  | zero => rfl
  | succ fuel => rw [walk, if_pos (.inl h)]

theorem walk_past (fuel : Nat) {len : Nat} (hlen : ¬ len < 512) (hn : chunkLen v f len ≠ 0)
    (h : 2 ^ 32 ≤ f.pos + chunkLen v f len * 512) : walk v (fuel + 1) f len = (1, true) := by
  rw [walk, if_neg (not_or.mpr ⟨hlen, hn⟩), if_pos h]

theorem walk_next (fuel : Nat) {len : Nat} (hlen : ¬ len < 512) (hn : chunkLen v f len ≠ 0)
    (h : ¬ 2 ^ 32 ≤ f.pos + chunkLen v f len * 512) :
    walk v (fuel + 1) f len =
      ((walk v fuel (fLseek f (f.pos + chunkLen v f len * 512)) (len - chunkLen v f len * 512)).1 + 1,
        (walk v fuel (fLseek f (f.pos + chunkLen v f len * 512)) (len - chunkLen v f len * 512)).2) := by
  rw [walk, if_neg (not_or.mpr ⟨hlen, hn⟩), if_neg h]

/-- Another sector is read. -/
theorem walk_reads (fuel : Nat) {len : Nat} (hlen : ¬ len < 512) (hn : chunkLen v f len ≠ 0) :
    ∃ count, (walk v (fuel + 1) f len).1 = count + 1 := by
  by_cases h : 2 ^ 32 ≤ f.pos + chunkLen v f len * 512
  · exact ⟨0, by rw [walk_past fuel hlen hn h]⟩
  · exact ⟨_, by rw [walk_next fuel hlen hn h]⟩

theorem readSlow_end (fuel : Nat) (io : List Chunk) (f : Fil) (hv : f.Valid v) (single : Bool)
    (data : List Byte) (len : Nat) (h : f.size < f.pos + len ∨ f.pos = f.size) (hlen : len < 512) :
    (RunsThrough v fuel io f len → (readSlow v f single data len).rc = 0) ∧
      (¬ RunsThrough v fuel io f len → (readSlow v f single data len).rc = STORAGE_EIO) := by
  have hpos := hv.pos
  have hiff : RunsThrough v fuel io f len ↔ len = 0 := by
    rw [RunsThrough, walk_short fuel f hlen, List.take_zero]
    constructor
    · intro hr
      obtain ⟨hpast | hwhole, -⟩ := hr
      · cases hpast
      · omega
    · intro heq
      obtain rfl := heq
      exact ⟨.inr ⟨rfl, .inl rfl⟩, by simp⟩
  rw [hiff]
  constructor
  · intro heq
    obtain rfl := heq
    rw [readSlow_within _ _ _ (by omega)]
  · intro h0
    exact readSlow_short _ _ _ hpos (by omega)

theorem not_runsThrough_of_bad (fuel : Nat) {io : List Chunk} {c : Chunk} {len : Nat}
    (hlen : ¬ len < 512) (hn : chunkLen v f len ≠ 0) (hc : io.headD .ok = c) (hne : c ≠ .ok) :
    ¬ RunsThrough v (fuel + 1) io f len := by
  intro hr
  have hall := hr.2
  obtain ⟨count, hcount⟩ := walk_reads fuel hlen hn
  rw [hcount] at hall
  exact take_bad _ hc hne hall

/-- A turn that reads its sectors leaves it to the others whether the loop runs through. -/
theorem runsThrough_of_ok (fuel : Nat) {io : List Chunk} {len : Nat} (hv : f.Valid v)
    (hroom : f.pos < room v f) (hal : f.pos % 512 = 0 ∨ f.pos = f.size)
    (h : f.size < f.pos + len ∨ f.pos = f.size) (hlen : ¬ len < 512)
    (hn : chunkLen v f len ≠ 0) (hnext : ¬ 2 ^ 32 ≤ f.pos + chunkLen v f len * 512)
    (hc : io.headD .ok = .ok) :
    RunsThrough v (fuel + 1) io f len ↔
      RunsThrough v fuel io.tail (fLseek f (f.pos + chunkLen v f len * 512))
        (len - chunkLen v f len * 512) := by
  have hpos := hv.pos
  obtain ⟨hrun, hle⟩ := chunkLen_le v f len
  obtain ⟨-, -, hinside⟩ := runAt_spec hv hroom
  rw [RunsThrough, RunsThrough, walk_next fuel hlen hn hnext, take_ok _ hc]
  change _ ↔ (_ ∨ _ ∧ (_ ∨ f.size < room v f)) ∧ _
  refine and_congr_left fun _ => or_congr_right ?_
  constructor
  · intro ⟨h1, h2⟩
    exact ⟨by omega, by omega⟩
  · intro ⟨h1, h2⟩
    exact ⟨by omega, by omega⟩

/-- Behind the 32-bit positions the rest of the request lies at the start of the file. -/
theorem readLoop_wrapped (fuel : Nat) (io : List Chunk) (hv : f.Valid v) (single : Bool)
    (data : List Byte) {len n : Nat} (hrest : f.pos + len ≤ 2 ^ 32 + f.size) (hn : n * 512 ≤ len)
    (h : 2 ^ 32 ≤ f.pos + n * 512) (hio : ∀ c ∈ io, c ≠ .failed false) :
    (readLoop v fuel io (fLseek f (f.pos + n * 512)) single data (len - n * 512)).rc = 0 := by
  have hsize := hv.size
  have hpos := hv.pos
  have hnext : (fLseek f (f.pos + n * 512)).pos = f.pos + n * 512 - 2 ^ 32 := by
    simp only [fLseek]
    omega
  refine (readLoop_within fuel io (fLseek f (f.pos + n * 512)) (fLseek_valid hv _) single data
    (len - n * 512) ?_ hio).1
  rw [hnext]
  change _ ≤ f.size
  omega

/-- Past the end of the file the loop returns 0 exactly when it runs through. -/
theorem readLoop_past (fuel : Nat) (io : List Chunk) (f : Fil) (hv : f.Valid v) (single : Bool)
    (data : List Byte) (len : Nat) (hrest : f.pos + len ≤ 2 ^ 32 + f.size)
    (hal : f.pos % 512 = 0 ∨ f.pos = f.size) (h : f.size < f.pos + len ∨ f.pos = f.size)
    (hfuel : len / 512 ≤ fuel) (hio : ∀ c ∈ io, c ≠ .failed false) :
    (RunsThrough v fuel io f len → (readLoop v fuel io f single data len).rc = 0) ∧
      (¬ RunsThrough v fuel io f len → (readLoop v fuel io f single data len).rc = STORAGE_EIO) := by
  induction fuel generalizing io f data len with
  | zero => exact readSlow_end 0 io f hv single data len h (by omega)
  | succ fuel ih =>
    by_cases hlen : len < 512
    · rw [readLoop, if_pos hlen]
      exact readSlow_end (fuel + 1) io f hv single data len h hlen
    · have hpos := hv.pos
      have hcovers := hv.covers
      have hshort : ∀ b, (readSlow v f b data len).rc = STORAGE_EIO :=
        fun b => readSlow_short b data len hpos (by omega)
      rw [readLoop, if_neg hlen]
      simp only
      by_cases hn : chunkLen v f len = 0
      · have hend : ¬ f.pos < room v f := fun hlt =>
          absurd hn (chunkLen_pos hv hlt len (by omega)).ne'
        rw [if_pos hn]
        refine ⟨fun hr => ?_, fun _ => rfl⟩
        have hwalk : walk v (fuel + 1) f len = (0, false) := by rw [walk, if_pos (.inr hn)]
        rw [RunsThrough, hwalk] at hr
        obtain ⟨hpast | hwhole, -⟩ := hr
        · cases hpast
        · omega
      · obtain ⟨hrun, hle⟩ := chunkLen_le v f len
        have hroom : f.pos < room v f := by
          by_contra hge
          have hzero := runAt_end hv (not_lt.mp hge)
          omega
        have hbad (c) (hc : io.headD .ok = c) (hne : c ≠ .ok) :=
          not_runsThrough_of_bad fuel hlen hn hc hne
        have htail : ∀ c ∈ io.tail, c ≠ .failed false := fun c hc => hio c (List.mem_of_mem_tail hc)
        rw [if_neg hn]
        cases hc : io.headD .ok with
        | noCmd23 =>
          exact ⟨fun hr => absurd hr (hbad _ hc (by decide)), fun _ => hshort true⟩
        | failed restarted =>
          have hnot := hbad _ hc (by simp)
          cases restarted with
          | false => exact ⟨fun hr => absurd hr hnot, fun _ => rfl⟩
          | true => exact ⟨fun hr => absurd hr hnot, fun _ => hshort single⟩
        | ok =>
          by_cases hpast : 2 ^ 32 ≤ f.pos + chunkLen v f len * 512
          · refine ⟨fun _ => readLoop_wrapped fuel io.tail hv single _ hrest hle hpast
              htail, fun hnot => absurd ?_ hnot⟩
            rw [RunsThrough, walk_past fuel hlen hn hpast, take_ok 0 hc]
            exact ⟨.inl rfl, by simp⟩
          · rw [runsThrough_of_ok fuel hv hroom hal h hlen hn hpast hc]
            obtain ⟨-, -, hinside⟩ := runAt_spec hv hroom
            have hnext : (fLseek f (f.pos + chunkLen v f len * 512)).pos =
                min (f.pos + chunkLen v f len * 512) f.size := by
              simp only [fLseek]
              omega
            apply ih _ _ (fLseek_valid hv _)
            · rw [hnext]
              change _ ≤ 2 ^ 32 + f.size
              omega
            · rw [hnext]
              change _ ∨ _ = f.size
              omega
            · rw [hnext]
              change f.size < _ ∨ _ = f.size
              omega
            · omega
            · exact htail

end positions

/-- storage_read does what f_read of `len` bytes does: the same bytes and position when they are
all in the file, and STORAGE_EIO otherwise. -/
def MeetsRead (v : Volume) (io : List Chunk) (f : Fil) (single : Bool) (dst len : Nat) : Prop :=
  if f.pos + len ≤ f.size then
    (storageRead v io f single dst len).rc = 0 ∧
      (storageRead v io f single dst len).data = (fRead v f len).1 ∧
      (storageRead v io f single dst len).file.pos = (fRead v f len).2.pos
  else (storageRead v io f single dst len).rc = STORAGE_EIO

def atSector (f : Fil) : Fil := { createLinkmap f with pos := f.pos + headLen f }

/-- The request is inside the file, or on the slow path, or ends before the first sector boundary,
or what follows that boundary does not run through. -/
def SafeRequest (v : Volume) (io : List Chunk) (f : Fil) (single : Bool) (dst len : Nat) : Prop :=
  f.pos + len ≤ f.size ∨ fast f single dst len = false ∨ f.size < f.pos + headLen f ∨
    ¬ RunsThrough v ((len - headLen f) / 512) io (atSector f) (len - headLen f)

section requests
variable {v : Volume} {io : List Chunk} {f : Fil} {single : Bool} {dst len : Nat}

theorem storageRead_slow (h : fast f single dst len = false) :
    storageRead v io f single dst len =
      let r := readSlow v (createLinkmap f) single [] len
      if r.rc ≠ 0 then { r with rc := STORAGE_EIO } else readSlow v r.file single r.data 0 := by
  simp [storageRead, h, readLoop]

theorem meets_slow (hv : f.Valid v) (h : fast f single dst len = false) :
    MeetsRead v io f single dst len := by
  unfold MeetsRead
  rw [storageRead_slow h]
  split
  · rename_i hin
    have hread : min len (f.size - f.pos) = len := by omega
    have hfirst := readSlow_within (v := v) (f := createLinkmap f) single [] len hin
    simp only [hfirst, ne_eq, not_true_eq_false, if_false]
    rw [readSlow_within _ _ 0 hin]
    simp [fRead, hread, slice, byteAt, createLinkmap]
  · rename_i hout
    have hshort := readSlow_short (v := v) (f := createLinkmap f) single [] len hv.pos (not_le.mp hout)
    have hbad : STORAGE_EIO ≠ 0 := by decide
    simp only [hshort, ne_eq, hbad, not_false_eq_true, if_true]

theorem fast_head (h : fast f single dst len = true) : headLen f ≤ len := by
  simp only [fast, Bool.and_eq_true, decide_eq_true_eq] at h
  exact h.1.1.1

theorem storageRead_fast (h : fast f single dst len = true) (hhead : f.pos + headLen f ≤ f.size) :
    storageRead v io f single dst len =
      readLoop v ((len - headLen f) / 512) io (atSector f) single
        (slice v (createLinkmap f) f.pos (headLen f)) (len - headLen f) := by
  have hfirst := readSlow_within (v := v) (f := createLinkmap f) single [] (headLen f) hhead
  simp only [storageRead, h, if_true, hfirst]
  rfl

theorem atSector_valid (hv : f.Valid v) (hhead : f.pos + headLen f ≤ f.size) :
    (atSector f).Valid v :=
  ⟨hv.csize, hv.runs, hv.covers, hhead, hv.size⟩

theorem atSector_aligned (f : Fil) : (atSector f).pos % 512 = 0 := by
  simp only [atSector, headLen]
  omega

/-- The head of the request is already too long. -/
theorem meets_head (hv : f.Valid v) (h : fast f single dst len = true)
    (hhead : f.size < f.pos + headLen f) : MeetsRead v io f single dst len := by
  have hle := fast_head h
  have hshort := readSlow_short (v := v) (f := createLinkmap f) single [] (headLen f) hv.pos hhead
  have hbad : STORAGE_EIO ≠ 0 := by decide
  rw [MeetsRead, if_neg (by omega)]
  simp only [storageRead, h, if_true, hshort, ne_eq, hbad, not_false_eq_true]

theorem meets_inside (hv : f.Valid v) (h : fast f single dst len = true)
    (hin : f.pos + len ≤ f.size) (hio : ∀ c ∈ io, c ≠ .failed false) :
    MeetsRead v io f single dst len := by
  have hle := fast_head h
  have hhead : f.pos + headLen f ≤ f.size := by omega
  have hread : min len (f.size - f.pos) = len := by omega
  have hin' : (atSector f).pos + (len - headLen f) ≤ (atSector f).size := by
    change f.pos + headLen f + (len - headLen f) ≤ f.size
    omega
  obtain ⟨hrc, hdata, hpos⟩ := readLoop_within ((len - headLen f) / 512) io (atSector f)
    (atSector_valid hv hhead) single (slice v (createLinkmap f) f.pos (headLen f)) (len - headLen f)
    hin' hio
  rw [MeetsRead, if_pos hin, storageRead_fast h hhead]
  refine ⟨hrc, (hdata (atSector_aligned f)).trans ?_, hpos.trans ?_⟩
  · have hsum : len = headLen f + (len - headLen f) := by omega
    have hslice : slice v f f.pos len =
        slice v f f.pos (headLen f) ++ slice v f (f.pos + headLen f) (len - headLen f) := by
      conv_lhs => rw [hsum, slice_append]
    simp only [fRead, hread]
    rw [hslice]
    rfl
  · simp only [fRead, hread, atSector]
    omega

/-- Past the end on the fast path. -/
theorem meets_past (hv : f.Valid v) (h : fast f single dst len = true)
    (hhead : f.pos + headLen f ≤ f.size) (hout : f.size < f.pos + len) (hlen : len < 2 ^ 32)
    (hio : ∀ c ∈ io, c ≠ .failed false) :
    MeetsRead v io f single dst len ↔
      ¬ RunsThrough v ((len - headLen f) / 512) io (atSector f) (len - headLen f) := by
  have hle := fast_head h
  have hpos := hv.pos
  have hrest : (atSector f).pos + (len - headLen f) ≤ 2 ^ 32 + (atSector f).size := by
    change f.pos + headLen f + (len - headLen f) ≤ 2 ^ 32 + f.size
    omega
  have hout' : (atSector f).size < (atSector f).pos + (len - headLen f) := by
    change f.size < f.pos + headLen f + (len - headLen f)
    omega
  obtain ⟨hzero, heio⟩ := readLoop_past ((len - headLen f) / 512) io (atSector f)
    (atSector_valid hv hhead) single (slice v (createLinkmap f) f.pos (headLen f)) (len - headLen f)
    hrest (.inl (atSector_aligned f)) (.inl hout') le_rfl hio
  rw [MeetsRead, if_neg (by omega), storageRead_fast h hhead]
  constructor
  · intro hrc hr
    rw [hzero hr] at hrc
    exact absurd hrc (by decide)
  · exact heio

/-- storage_read is as good as f_read exactly for the safe requests. -/
theorem storageRead_meets_iff (v : Volume) (io : List Chunk) (f : Fil) (single : Bool)
    (dst len : Nat) (hv : f.Valid v) (hlen : len < 2 ^ 32) (hio : ∀ c ∈ io, c ≠ .failed false) :
    MeetsRead v io f single dst len ↔ SafeRequest v io f single dst len := by
  cases h : fast f single dst len with
  | false => exact iff_of_true (meets_slow hv h) (.inr (.inl h))
  | true =>
    by_cases hin : f.pos + len ≤ f.size
    · exact iff_of_true (meets_inside hv h hin hio) (.inl hin)
    · by_cases hhead : f.size < f.pos + headLen f
      · exact iff_of_true (meets_head hv h hhead) (.inr (.inr (.inl hhead)))
      · rw [meets_past hv h (not_lt.mp hhead) (not_le.mp hin) hlen hio]
        constructor
        · intro hr
          exact .inr (.inr (.inr hr))
        · intro hsafe
          obtain hs | hs | hs | hs := hsafe
          · exact absurd hs hin
          · rw [h] at hs
            cases hs
          · exact absurd hs hhead
          · exact hs

end requests

def shortVolume : Volume := ⟨4, 1000, fun i => BitVec.ofNat 8 i⟩

def shortFile : Fil := ⟨600, [(1, 2)], 0, false⟩

theorem shortFile_valid : shortFile.Valid shortVolume := by
  refine ⟨by decide, ?_, by decide, by decide, by decide⟩
  intro r hr
  rw [List.mem_singleton.mp hr]
  exact ⟨by decide, by decide⟩

/-- A read inside the file whose multi-block read fails and falls back. -/
theorem storageRead_meets_fallback :
    MeetsRead shortVolume [.failed true] shortFile false 0x30000000 600 :=
  (storageRead_meets_iff shortVolume [.failed true] shortFile false 0x30000000 600 shortFile_valid
    (by decide) (by decide)).2 (.inl (by decide))

/-- 1024 bytes of a file of 600 bytes. -/
theorem storageRead_past_end :
    ¬ ∀ (v : Volume) (io : List Chunk) (f : Fil) (single : Bool) (dst len : Nat), f.Valid v →
      len < 2 ^ 32 → (∀ c ∈ io, c ≠ .failed false) → MeetsRead v io f single dst len := by
  intro h
  have hrc := h shortVolume [] shortFile false 0x30000000 1024 shortFile_valid (by decide) (by simp)
  rw [MeetsRead, if_neg (by decide)] at hrc
  exact absurd hrc (by decide)

end AipcOs.Storage
