import AipcOs.WordBits
import AipcOs.NearestSearch
import Mathlib.Algebra.Order.Floor.Div

/-! anyka-dac: the master clock divider and the oversampling ratio for a sample rate. -/
namespace AipcOs.DacDivider
open ByteMemory WordBits NearestSearch

def DAC_MAX_MASTER_CLOCK : Word := 14000000
def DAC_RATE_TOLERANCE : Word := 5
def DAC_MAX_DIVIDER : Word := 256

def UINT_MAX : Word := 0xFFFFFFFF

def EINVAL : Int := 22

def dacOsr : List Word := [256, 272, 264, 248, 240, 136, 128, 120]

/-- `clkdiv1` is what regmap_read reads, none if it fails. -/
def pll1Rate (clkdiv1 : Option Word) : Word :=
  match clkdiv1 with
  | none => 0
  | some clkdiv1 =>
    let rate := 4000000 * (62 + (clkdiv1 &&& 0x3F))
    rate / (1 + (clkdiv1 >>> 17 &&& 0xF))

def divMin (pll1 : Word) : Word := (pll1 + DAC_MAX_MASTER_CLOCK - 1) / DAC_MAX_MASTER_CLOCK

def clamp (v lo hi : Word) : Word := if v ≥ hi then hi else if v ≤ lo then lo else v

def absDiff (a b : Word) : Word := if a > b then a - b else b - a

structure Search where
  best_error : Word
  best_osr : Word
  /-- What was stored through out_osr and out_div, if anything. -/
  out : Option (Nat × Word)

def tryDivider (pll1 rate : Word) (i : Nat) (osr divider : Word) (s : Search) : Search :=
  let got := pll1 / (divider * osr)
  let error := absDiff got rate
  if error > s.best_error then s
  else if error = s.best_error ∧ osr ≤ s.best_osr then s
  else { best_error := error, best_osr := osr, out := some (i, divider) }

def neighbour (pll1 rate osr n : Word) : Word :=
  clamp (pll1 / (rate * osr) + n) (divMin pll1) DAC_MAX_DIVIDER

def tryOsr (pll1 rate : Word) (s : Search) (entry : Word × Nat) : Search :=
  let osr := entry.1
  let s := tryDivider pll1 rate entry.2 osr (neighbour pll1 rate osr 0) s
  tryDivider pll1 rate entry.2 osr (neighbour pll1 rate osr 1) s

def search (pll1 rate : Word) : Search :=
  dacOsr.zipIdx.foldl (tryOsr pll1 rate) { best_error := UINT_MAX, best_osr := 0, out := none }

def findDivider (pll1 rate : Word) : Int × Option (Nat × Word) :=
  if pll1 = 0 ∨ rate = 0 then (-EINVAL, none)
  else
    let s := search pll1 rate
    if s.best_error = UINT_MAX then (-EINVAL, s.out)
    else if s.best_error * 1000 > rate * DAC_RATE_TOLERANCE then (-EINVAL, s.out)
    else (0, s.out)

def rateError (pll1 rate osr divider : Nat) : Nat := Nat.dist (pll1 / (divider * osr)) rate

structure Domain (pll1 rate : Word) : Prop where
  pll1_pos : 1 ≤ pll1.toNat
  pll1_le : pll1.toNat ≤ 256 * 14000000
  rate_pos : 1 ≤ rate.toNat
  rate_le : rate.toNat ≤ 4000000

structure Exact (pll1 rate : Word) : Prop where
  round : (pll1 + DAC_MAX_MASTER_CLOCK - 1).toNat = pll1.toNat + 14000000 - 1 ∧
    (pll1 + DAC_MAX_MASTER_CLOCK).toNat = pll1.toNat + 14000000
  ratio : ∀ osr ∈ dacOsr, (rate * osr).toNat = rate.toNat * osr.toNat ∧ rate * osr ≠ 0
  next : ∀ osr ∈ dacOsr, (pll1 / (rate * osr) + 1).toNat = (pll1 / (rate * osr)).toNat + 1
  clock : ∀ osr ∈ dacOsr, ∀ n ∈ [(0 : Word), 1],
    (neighbour pll1 rate osr n * osr).toNat = (neighbour pll1 rate osr n).toNat * osr.toNat ∧
      neighbour pll1 rate osr n * osr ≠ 0
  error : ((search pll1 rate).best_error * 1000).toNat = (search pll1 rate).best_error.toNat * 1000
  tolerance : (rate * DAC_RATE_TOLERANCE).toNat = rate.toNat * 5

variable {pll1 rate osr : Word}

theorem dacOsr_bounds (h : osr ∈ dacOsr) : 120 ≤ osr.toNat ∧ osr.toNat ≤ 272 := by
  simp only [dacOsr, List.mem_cons, List.not_mem_nil, or_false] at h
  obtain rfl | rfl | rfl | rfl | rfl | rfl | rfl | rfl := h <;> simp

theorem masterClock_toNat : DAC_MAX_MASTER_CLOCK.toNat = 14000000 := by
  simp [DAC_MAX_MASTER_CLOCK]

theorem Domain.round (h : Domain pll1 rate) :
    (pll1 + DAC_MAX_MASTER_CLOCK).toNat = pll1.toNat + 14000000 ∧
      (pll1 + DAC_MAX_MASTER_CLOCK - 1).toNat = pll1.toNat + 14000000 - 1 := by
  have hle := h.pll1_le
  have hadd : (pll1 + DAC_MAX_MASTER_CLOCK).toNat = pll1.toNat + 14000000 :=
    add_toNat rfl masterClock_toNat (by omega)
  refine ⟨hadd, ?_⟩
  have hone : (1 : Word) ≤ pll1 + DAC_MAX_MASTER_CLOCK := by
    rw [BitVec.le_def, hadd]
    exact Nat.le_add_left_of_le (by simp)
  rw [BitVec.toNat_sub_of_le hone, hadd]
  rfl

theorem Domain.divMin_toNat (h : Domain pll1 rate) :
    (divMin pll1).toNat = pll1.toNat ⌈/⌉ 14000000 := by
  rw [divMin, BitVec.toNat_udiv, h.round.2, masterClock_toNat,
    Nat.ceilDiv_eq_add_pred_div]

theorem Domain.divMin_bounds (h : Domain pll1 rate) :
    1 ≤ pll1.toNat ⌈/⌉ 14000000 ∧ pll1.toNat ⌈/⌉ 14000000 ≤ 256 := by
  have hpos := h.pll1_pos
  have hle := h.pll1_le
  rw [Nat.ceilDiv_eq_add_pred_div]
  omega

theorem Domain.ratio (h : Domain pll1 rate) (ho : osr ∈ dacOsr) :
    (rate * osr).toNat = rate.toNat * osr.toNat ∧ 0 < rate.toNat * osr.toNat := by
  obtain ⟨hlo, hhi⟩ := dacOsr_bounds ho
  have hle : rate.toNat * osr.toNat ≤ 4000000 * 272 := Nat.mul_le_mul h.rate_le hhi
  exact ⟨mul_toNat rfl rfl (by omega), Nat.mul_pos h.rate_pos (by omega)⟩

theorem Domain.quotient (h : Domain pll1 rate) (ho : osr ∈ dacOsr) :
    (pll1 / (rate * osr)).toNat = pll1.toNat / (rate.toNat * osr.toNat) ∧
      (pll1 / (rate * osr) + 1).toNat = pll1.toNat / (rate.toNat * osr.toNat) + 1 := by
  have hdiv : (pll1 / (rate * osr)).toNat = pll1.toNat / (rate.toNat * osr.toNat) := by
    rw [BitVec.toNat_udiv, (h.ratio ho).1]
  have hle : pll1.toNat / (rate.toNat * osr.toNat) ≤ pll1.toNat := Nat.div_le_self _ _
  have hpll := h.pll1_le
  exact ⟨hdiv, add_toNat hdiv rfl (by omega)⟩

theorem clamp_toNat {v lo hi : Word} (h : lo.toNat ≤ hi.toNat) :
    (clamp v lo hi).toNat = clamped lo.toNat hi.toNat v.toNat := by
  simp only [clamp, clamped, BitVec.le_def, ge_iff_le]
  split
  · omega
  · split <;> omega

def near (pll1 rate osr n : Nat) : Nat :=
  clamped (pll1 ⌈/⌉ 14000000) 256 (pll1 / (rate * osr) + n)

theorem Domain.neighbour_toNat (h : Domain pll1 rate) (ho : osr ∈ dacOsr) {n : Word}
    (hn : n ∈ [(0 : Word), 1]) :
    (neighbour pll1 rate osr n).toNat = near pll1.toNat rate.toNat osr.toNat n.toNat := by
  have hstart : (pll1 / (rate * osr) + n).toNat =
      pll1.toNat / (rate.toNat * osr.toNat) + n.toNat := by
    obtain ⟨hdiv, hnext⟩ := h.quotient ho
    obtain rfl | rfl : n = 0 ∨ n = 1 := by simpa using hn
    · simpa using hdiv
    · exact hnext
  have hle : (divMin pll1).toNat ≤ DAC_MAX_DIVIDER.toNat := by
    rw [h.divMin_toNat]
    exact h.divMin_bounds.2
  rw [neighbour, clamp_toNat hle, hstart, h.divMin_toNat, near]
  rfl

theorem Domain.near_bounds (h : Domain pll1 rate) (osr n : Nat) :
    pll1.toNat ⌈/⌉ 14000000 ≤ near pll1.toNat rate.toNat osr n ∧
      near pll1.toNat rate.toNat osr n ≤ 256 :=
  clamped_mem h.divMin_bounds.2 _

theorem Domain.clock (h : Domain pll1 rate) (ho : osr ∈ dacOsr) {n : Word}
    (hn : n ∈ [(0 : Word), 1]) :
    (neighbour pll1 rate osr n * osr).toNat =
        near pll1.toNat rate.toNat osr.toNat n.toNat * osr.toNat ∧
      0 < near pll1.toNat rate.toNat osr.toNat n.toNat * osr.toNat := by
  obtain ⟨hlo, hhi⟩ := dacOsr_bounds ho
  obtain ⟨hmin, hmax⟩ := h.near_bounds osr.toNat n.toNat
  have hone := h.divMin_bounds.1
  have hle : near pll1.toNat rate.toNat osr.toNat n.toNat * osr.toNat ≤ 256 * 272 :=
    Nat.mul_le_mul hmax hhi
  exact ⟨mul_toNat (h.neighbour_toNat ho hn) rfl (by omega), Nat.mul_pos (by omega) (by omega)⟩

theorem absDiff_toNat (a b : Word) : (absDiff a b).toNat = Nat.dist a.toNat b.toNat := by
  simp only [absDiff, gt_iff_lt]
  split
  · rename_i hlt
    rw [BitVec.toNat_sub_of_le (BitVec.le_of_lt hlt),
      Nat.dist_eq_sub_of_le_right (Nat.le_of_lt hlt)]
  · rename_i hle
    rw [BitVec.toNat_sub_of_le (BitVec.not_lt.mp hle),
      Nat.dist_eq_sub_of_le (BitVec.not_lt.mp hle)]

/-- The master clock stays below its limit, so the rate it gives is far from a word's end. -/
theorem Domain.rateError_le (h : Domain pll1 rate) (ho : osr ∈ dacOsr) {d : Nat}
    (hd : pll1.toNat ⌈/⌉ 14000000 ≤ d) :
    rateError pll1.toNat rate.toNat osr.toNat d ≤ 4000000 := by
  have hone := h.divMin_bounds.1
  have hclock : pll1.toNat ≤ 14000000 * d := (ceilDiv_le_iff_le_mul (by decide)).mp hd
  have hdiv : pll1.toNat / (d * osr.toNat) ≤ 14000000 / 120 := by
    calc pll1.toNat / (d * osr.toNat) ≤ 14000000 * d / (d * osr.toNat) :=
          Nat.div_le_div_right hclock
      _ = 14000000 / osr.toNat := by
          rw [Nat.mul_comm 14000000 d, Nat.mul_div_mul_left _ _ (by omega)]
      _ ≤ 14000000 / 120 := Nat.div_le_div_left (dacOsr_bounds ho).1 (by decide)
  rw [rateError]
  obtain hle | hle := Nat.le_total (pll1.toNat / (d * osr.toNat)) rate.toNat
  · rw [Nat.dist_eq_sub_of_le hle]
    exact (Nat.sub_le _ _).trans h.rate_le
  · rw [Nat.dist_eq_sub_of_le_right hle]
    exact (Nat.sub_le _ _).trans (hdiv.trans (by decide))

structure Candidate where
  index : Nat
  osr : Word
  divider : Word

def Candidate.error (pll1 rate : Word) (c : Candidate) : Nat :=
  rateError pll1.toNat rate.toNat c.osr.toNat c.divider.toNat

def Candidate.width (c : Candidate) : Nat := c.osr.toNat

def tried (pll1 rate : Word) (entry : Word × Nat) : List Candidate :=
  [⟨entry.2, entry.1, neighbour pll1 rate entry.1 0⟩,
    ⟨entry.2, entry.1, neighbour pll1 rate entry.1 1⟩]

def candidates (pll1 rate : Word) : List Candidate := dacOsr.zipIdx.flatMap (tried pll1 rate)

structure Candidate.Sound (pll1 rate : Word) (c : Candidate) : Prop where
  osr : dacOsr[c.index]? = some c.osr
  divider : pll1.toNat ⌈/⌉ 14000000 ≤ c.divider.toNat ∧ c.divider.toNat ≤ 256
  error : (absDiff (pll1 / (c.divider * c.osr)) rate).toNat = c.error pll1 rate
  small : c.error pll1 rate ≤ 4000000

theorem mem_candidates {c : Candidate} (h : c ∈ candidates pll1 rate) :
    ∃ n ∈ [(0 : Word), 1], dacOsr[c.index]? = some c.osr ∧
      c.divider = neighbour pll1 rate c.osr n := by
  obtain ⟨entry, hentry, hc⟩ := List.mem_flatMap.mp h
  have hosr : dacOsr[entry.2]? = some entry.1 := List.mem_zipIdx_iff_getElem?.mp hentry
  simp only [tried, List.mem_cons, List.not_mem_nil, or_false] at hc
  obtain rfl | rfl := hc
  · exact ⟨0, by simp, hosr, rfl⟩
  · exact ⟨1, by simp, hosr, rfl⟩

theorem Domain.sound (h : Domain pll1 rate) {c : Candidate} (hc : c ∈ candidates pll1 rate) :
    c.Sound pll1 rate := by
  obtain ⟨n, hn, hosr, hdivider⟩ := mem_candidates hc
  have ho : c.osr ∈ dacOsr := List.mem_of_getElem? hosr
  have hd : c.divider.toNat = near pll1.toNat rate.toNat c.osr.toNat n.toNat := by
    rw [hdivider, h.neighbour_toNat ho hn]
  have hbounds := h.near_bounds c.osr.toNat n.toNat
  rw [← hd] at hbounds
  refine ⟨hosr, hbounds, ?_, h.rateError_le ho hbounds.1⟩
  rw [absDiff_toNat, BitVec.toNat_udiv, hdivider, (h.clock ho hn).1, ← hd, Candidate.error, rateError]

structure Keeps (pll1 rate : Word) (s : Search) (best : Option Candidate) : Prop where
  none : best = .none → s = ⟨UINT_MAX, 0, .none⟩
  some : ∀ b, best = .some b → b.Sound pll1 rate ∧
    s.best_error.toNat = b.error pll1 rate ∧ s.best_osr = b.osr ∧ s.out = .some (b.index, b.divider)

/-- What one try leaves, by the error of its divider. -/
theorem tryDivider_cases {s : Search} {c : Candidate} (hc : c.Sound pll1 rate) :
    tryDivider pll1 rate c.index c.osr c.divider s =
      if c.error pll1 rate > s.best_error.toNat then s
      else if c.error pll1 rate = s.best_error.toNat ∧ c.osr ≤ s.best_osr then s
      else ⟨absDiff (pll1 / (c.divider * c.osr)) rate, c.osr, some (c.index, c.divider)⟩ := by
  simp only [tryDivider, gt_iff_lt, BitVec.lt_def, ← BitVec.toNat_inj, hc.error]

/-- One try is one step of the scan for the best candidate. -/
theorem tryDivider_keeps {s : Search} {best : Option Candidate} {c : Candidate}
    (hk : Keeps pll1 rate s best) (hc : c.Sound pll1 rate) :
    Keeps pll1 rate (tryDivider pll1 rate c.index c.osr c.divider s)
      (improve (Candidate.error pll1 rate) Candidate.width best c) := by
  have htaken : Keeps pll1 rate
      ⟨absDiff (pll1 / (c.divider * c.osr)) rate, c.osr, some (c.index, c.divider)⟩ (some c) := by
    refine ⟨fun h => (Option.some_ne_none c h).elim, fun b hb => ?_⟩
    obtain rfl := Option.some.inj hb
    exact ⟨hc, hc.error, rfl, rfl⟩
  rw [tryDivider_cases hc]
  cases best with
  | none =>
    obtain rfl := hk.none rfl
    have hmax : UINT_MAX.toNat = 4294967295 := rfl
    have hsmall := hc.small
    rw [if_neg (by rw [hmax]; omega), if_neg (by rw [hmax]; omega)]
    exact htaken
  | some b =>
    obtain ⟨_, herror, hosr, _⟩ := hk.some b rfl
    simp only [improve, herror, hosr, Candidate.width, ← BitVec.le_def]
    split
    · exact hk
    · split
      · exact hk
      · exact htaken

theorem foldl_keeps (entries : List (Word × Nat))
    (hall : ∀ c ∈ entries.flatMap (tried pll1 rate), c.Sound pll1 rate) {s : Search}
    {best : Option Candidate} (hk : Keeps pll1 rate s best) :
    Keeps pll1 rate (entries.foldl (tryOsr pll1 rate) s)
      ((entries.flatMap (tried pll1 rate)).foldl
        (improve (Candidate.error pll1 rate) Candidate.width) best) := by
  induction entries generalizing s best with
  | nil => exact hk
  | cons entry entries ih =>
    rw [List.flatMap_cons] at hall ⊢
    rw [List.foldl_cons, List.foldl_append]
    have hfirst := tryDivider_keeps hk (hall ⟨entry.2, entry.1, neighbour pll1 rate entry.1 0⟩
      (by simp [tried]))
    have hsecond := tryDivider_keeps hfirst
      (hall ⟨entry.2, entry.1, neighbour pll1 rate entry.1 1⟩ (by simp [tried]))
    exact ih (fun c hc => hall c (List.mem_append_right _ hc)) hsecond

/-- The search ends with the best of the dividers it tries. -/
theorem Domain.search_best (h : Domain pll1 rate) :
    ∃ b, Best (Candidate.error pll1 rate) Candidate.width (candidates pll1 rate) b ∧
      b.Sound pll1 rate ∧ (search pll1 rate).best_error.toNat = b.error pll1 rate ∧
      (search pll1 rate).out = some (b.index, b.divider) := by
  have hne : candidates pll1 rate ≠ [] := by simp [candidates, dacOsr, tried]
  obtain ⟨b, hscan, hbest⟩ := foldl_improve (Candidate.error pll1 rate) Candidate.width hne
  have hstart : Keeps pll1 rate ⟨UINT_MAX, 0, none⟩ none :=
    ⟨fun _ => rfl, fun b hb => (Option.some_ne_none b hb.symm).elim⟩
  have hkeeps := foldl_keeps dacOsr.zipIdx (fun c hc => h.sound hc) hstart
  obtain ⟨hsound, herror, _, hout⟩ := hkeeps.some b hscan
  exact ⟨b, hbest, hsound, herror, hout⟩

/-- Of each ratio the search tries a divider that is as good as any. -/
theorem Domain.tried_nearest (h : Domain pll1 rate) (ho : osr ∈ dacOsr) {d : Nat}
    (hlo : pll1.toNat ⌈/⌉ 14000000 ≤ d) (hhi : d ≤ 256) :
    ∃ c ∈ candidates pll1 rate, c.osr = osr ∧
      c.error pll1 rate ≤ rateError pll1.toNat rate.toNat osr.toNat d := by
  obtain ⟨i, hi⟩ := List.mem_iff_getElem?.mp ho
  have hentry : (osr, i) ∈ dacOsr.zipIdx := List.mem_zipIdx_iff_getElem?.mpr hi
  have hwidth := (dacOsr_bounds ho).1
  have hmin := h.divMin_bounds.1
  have hratio := (h.ratio ho).2
  have hanti : ∀ d e, pll1.toNat ⌈/⌉ 14000000 ≤ d → d ≤ e →
      pll1.toNat / (e * osr.toNat) ≤ pll1.toNat / (d * osr.toNat) :=
    fun d e hd hde => div_mul_antitone pll1.toNat osr.toNat (by omega) (by omega) hde
  have habove : ∀ d, pll1.toNat ⌈/⌉ 14000000 ≤ d → d ≤ pll1.toNat / (rate.toNat * osr.toNat) →
      rate.toNat ≤ pll1.toNat / (d * osr.toNat) := by
    intro d hd hds
    rw [Nat.le_div_iff_mul_le hratio] at hds
    rw [Nat.le_div_iff_mul_le (Nat.mul_pos (by omega) (by omega))]
    rwa [Nat.mul_left_comm]
  have hbelow : ∀ d, pll1.toNat / (rate.toNat * osr.toNat) < d →
      pll1.toNat / (d * osr.toNat) ≤ rate.toNat := by
    intro d hsd
    rw [Nat.div_lt_iff_lt_mul hratio] at hsd
    have hlt : pll1.toNat < d * osr.toNat * rate.toNat := by
      rwa [Nat.mul_assoc, Nat.mul_comm osr.toNat]
    exact (Nat.div_lt_of_lt_mul hlt).le
  have hcandidate : ∀ n ∈ [(0 : Word), 1],
      (⟨i, osr, neighbour pll1 rate osr n⟩ : Candidate) ∈ candidates pll1 rate := by
    intro n hn
    refine List.mem_flatMap.mpr ⟨(osr, i), hentry, ?_⟩
    obtain rfl | rfl : n = 0 ∨ n = 1 := by simpa using hn
    · simp [tried]
    · simp [tried]
  have herror : ∀ n ∈ [(0 : Word), 1],
      Candidate.error pll1 rate ⟨i, osr, neighbour pll1 rate osr n⟩ =
        rateError pll1.toNat rate.toNat osr.toNat
          (near pll1.toNat rate.toNat osr.toNat n.toNat) := by
    intro n hn
    rw [Candidate.error, h.neighbour_toNat ho hn]
  obtain hle | hle := nearest_neighbour hanti habove hbelow d hlo hhi
  · exact ⟨_, hcandidate 0 (by simp), rfl, (herror 0 (by simp)).trans_le hle⟩
  · exact ⟨_, hcandidate 1 (by simp), rfl, (herror 1 (by simp)).trans_le hle⟩

theorem Domain.verdict (h : Domain pll1 rate)
    (hsmall : (search pll1 rate).best_error.toNat ≤ 4000000) :
    ((search pll1 rate).best_error * 1000).toNat = (search pll1 rate).best_error.toNat * 1000 ∧
      (rate * DAC_RATE_TOLERANCE).toNat = rate.toNat * 5 := by
  have hle := h.rate_le
  exact ⟨mul_toNat rfl (by simp) (by omega), mul_toNat rfl rfl (by omega)⟩

theorem Domain.findDivider_eq (h : Domain pll1 rate)
    (hsmall : (search pll1 rate).best_error.toNat ≤ 4000000) :
    (findDivider pll1 rate).2 = (search pll1 rate).out ∧
      ((findDivider pll1 rate).1 = 0 ↔
        1000 * (search pll1 rate).best_error.toNat ≤ 5 * rate.toNat) := by
  have hinput : ¬(pll1 = 0 ∨ rate = 0) := by
    intro h0
    have hpll1 := h.pll1_pos
    have hrate := h.rate_pos
    obtain h0 | h0 := h0
    · simp [h0] at hpll1
    · simp [h0] at hrate
  have hmax : (search pll1 rate).best_error ≠ UINT_MAX := by
    intro h0
    simp [h0, UINT_MAX] at hsmall
  obtain ⟨herror, htolerance⟩ := h.verdict hsmall
  simp only [findDivider, hinput, hmax, if_false, gt_iff_lt, BitVec.lt_def, herror, htolerance]
  split
  · exact ⟨rfl, iff_of_false (by simp [EINVAL]) (by omega)⟩
  · exact ⟨rfl, iff_of_true rfl (by omega)⟩

theorem Domain.exact (h : Domain pll1 rate)
    (hsmall : (search pll1 rate).best_error.toNat ≤ 4000000) : Exact pll1 rate where
  round := ⟨h.round.2, h.round.1⟩
  ratio := by
    intro osr ho
    obtain ⟨heq, hpos⟩ := h.ratio ho
    refine ⟨heq, fun h0 => ?_⟩
    rw [h0] at heq
    exact absurd heq (Nat.ne_of_lt hpos)
  next := by
    intro osr ho
    rw [(h.quotient ho).1, (h.quotient ho).2]
  clock := by
    intro osr ho n hn
    obtain ⟨heq, hpos⟩ := h.clock ho hn
    refine ⟨by rw [heq, h.neighbour_toNat ho hn], fun h0 => ?_⟩
    rw [h0] at heq
    exact absurd heq (Nat.ne_of_lt hpos)
  error := (h.verdict hsmall).1
  tolerance := (h.verdict hsmall).2

/-- The search finds the nearest rate of all ratios and all dividers that the master clock allows,
and prefers the widest ratio. -/
theorem findDivider_optimal (h : Domain pll1 rate) :
    ∃ i osr divider, (findDivider pll1 rate).2 = some (i, divider) ∧ dacOsr[i]? = some osr ∧
      pll1.toNat ⌈/⌉ 14000000 ≤ divider.toNat ∧ divider.toNat ≤ 256 ∧
      pll1.toNat ≤ 14000000 * divider.toNat ∧
      (∀ osr' ∈ dacOsr, ∀ d, pll1.toNat ⌈/⌉ 14000000 ≤ d → d ≤ 256 →
        rateError pll1.toNat rate.toNat osr.toNat divider.toNat ≤
            rateError pll1.toNat rate.toNat osr'.toNat d ∧
          (rateError pll1.toNat rate.toNat osr'.toNat d =
            rateError pll1.toNat rate.toNat osr.toNat divider.toNat → osr'.toNat ≤ osr.toNat)) ∧
      ((findDivider pll1 rate).1 = 0 ↔
        1000 * rateError pll1.toNat rate.toNat osr.toNat divider.toNat ≤ 5 * rate.toNat) ∧
      Exact pll1 rate := by
  obtain ⟨b, hbest, hsound, herror, hout⟩ := h.search_best
  have hsmall : (search pll1 rate).best_error.toNat ≤ 4000000 := herror ▸ hsound.small
  obtain ⟨hout', hret⟩ := h.findDivider_eq hsmall
  rw [herror] at hret
  refine ⟨b.index, b.osr, b.divider, hout'.trans hout, hsound.osr, hsound.divider.1,
    hsound.divider.2, (ceilDiv_le_iff_le_mul (by decide)).mp hsound.divider.1, ?_, hret,
    h.exact hsmall⟩
  intro osr' ho d hlo hhi
  obtain ⟨c, hc, rfl, hnear⟩ := h.tried_nearest ho hlo hhi
  have hleast := hbest.least c hc
  refine ⟨hleast.trans hnear, fun htie => hbest.widest c hc (le_antisymm ?_ hleast)⟩
  exact hnear.trans htie.le

/-- PLL1 at 248 MHz and 48 kHz. -/
theorem findDivider_optimal_48k :
    ∃ i osr divider, (findDivider 248000000 48000).2 = some (i, divider) ∧
      dacOsr[i]? = some osr ∧ 248000000 ⌈/⌉ 14000000 ≤ divider.toNat := by
  have h : Domain 248000000 48000 := ⟨by decide, by decide, by decide, by decide⟩
  obtain ⟨i, osr, divider, hout, hosr, hmin, _⟩ := findDivider_optimal h
  exact ⟨i, osr, divider, hout, hosr, hmin⟩

example : findDivider 248000000 48000 = (0, some (1, 19)) := by decide +kernel

/-- Whatever the clock register holds, the PLL1 rate is one that the search is meant for. -/
theorem pll1Rate_domain (clkdiv1 : Word) (hpos : 1 ≤ rate.toNat) (hle : rate.toNat ≤ 4000000) :
    Domain (pll1Rate (some clkdiv1)) rate := by
  have hm : (clkdiv1 &&& 0x3F).toNat ≤ 63 := by
    rw [BitVec.toNat_and]
    exact Nat.and_le_right
  have hd : (clkdiv1 >>> 17 &&& 0xF).toNat ≤ 15 := by
    rw [BitVec.toNat_and]
    exact Nat.and_le_right
  have hsum : (62 + (clkdiv1 &&& 0x3F)).toNat = 62 + (clkdiv1 &&& 0x3F).toNat :=
    add_toNat rfl rfl (by omega)
  have hrate : (4000000 * (62 + (clkdiv1 &&& 0x3F))).toNat =
      4000000 * (62 + (clkdiv1 &&& 0x3F).toNat) := mul_toNat (by simp) hsum (by omega)
  have hdivider : (1 + (clkdiv1 >>> 17 &&& 0xF)).toNat = 1 + (clkdiv1 >>> 17 &&& 0xF).toNat :=
    add_toNat rfl rfl (by omega)
  have hpll1 : (pll1Rate (some clkdiv1)).toNat = 4000000 * (62 + (clkdiv1 &&& 0x3F).toNat) /
      (1 + (clkdiv1 >>> 17 &&& 0xF).toNat) := by
    rw [pll1Rate, BitVec.toNat_udiv, hrate, hdivider]
  refine ⟨?_, ?_, hpos, hle⟩
  · rw [hpll1, Nat.le_div_iff_mul_le (by omega)]
    omega
  · rw [hpll1]
    exact (Nat.div_le_self _ _).trans (by omega)

end AipcOs.DacDivider
