import AipcOs.ByteMemory
import AipcOs.WrapClock

/-! lib/timer.c: milliseconds from a 26-bit counter that counts down and wraps. -/
namespace AipcOs.Timer
open ByteMemory WrapClock

def TIMER_COUNT_MASK : Word := 0x03FFFFFF
def TICKS_PER_MS : BitVec 64 := 12000

/-- The counter of timer2 from timer_init on: the time of every read of its live register, and what
the register holds then. Only 26 bits of it count. -/
structure Counter where
  tick : Nat → Nat
  live : Nat → Word
  mono : Monotone tick
  counts : ∀ n, (live n).toNat + tick n ≡ (live 0).toNat + tick 0 [MOD 2 ^ 26]

structure State where
  s_last_raw : Word
  s_total_ticks : BitVec 64
  latest : Nat

def Counter.loaded (tick : Nat → Nat) (mono : Monotone tick) : Counter where
  tick := tick
  live n := BitVec.ofNat 32 (2 ^ 26 - 1 - tick n % 2 ^ 26)
  mono := mono
  counts n := by
    simp only [BitVec.toNat_ofNat, Nat.ModEq]
    omega

variable (c : Counter)

def readLive (n : Nat) : Word := c.live n &&& TIMER_COUNT_MASK

def timerInit : State := ⟨readLive c 0, 0, 0⟩

def timerMs (t : State) : Word × State :=
  let raw := readLive c (t.latest + 1)
  let total := t.s_total_ticks + ((t.s_last_raw - raw) &&& TIMER_COUNT_MASK).setWidth 64
  ((total / TICKS_PER_MS).setWidth 32, ⟨raw, total, t.latest + 1⟩)

/-- At most `turns` turns of the loop of timer_delay_ms, and whether it has ended. -/
def delayLoop (start ms : Word) : (turns : Nat) → State → Bool × State
  | 0, t => (false, t)
  | turns + 1, t =>
    let now := timerMs c t
    if now.1 - start < ms then delayLoop start ms turns now.2 else (true, now.2)

def timerDelayMs (ms : Word) (turns : Nat) (t : State) : Bool × State :=
  let start := timerMs c t
  delayLoop c start.1 ms turns start.2

inductive Reached : State → Prop where
  | init : Reached (timerInit c)
  | ms {t : State} (h : Reached t) : Reached (timerMs c t).2
  | delay {t : State} (h : Reached t) (ms : Word) (turns : Nat) :
      Reached (timerDelayMs c ms turns t).2

/-- Up to read `n` no wrap goes unseen, of the counter or of the sum. -/
structure InTime (n : Nat) : Prop where
  near : ∀ i < n, c.tick (i + 1) - c.tick i < 2 ^ 26
  short : c.tick n - c.tick 0 < 2 ^ 64

def elapsed (n : Nat) : Nat := c.tick n - c.tick 0

def after : Nat → State
  | 0 => timerInit c
  | n + 1 => (timerMs c (after n)).2

variable {c}

theorem and_mask (x : Word) : (x &&& TIMER_COUNT_MASK).toNat = x.toNat % 2 ^ 26 := by
  rw [BitVec.toNat_and]
  exact Nat.and_two_pow_sub_one_eq_mod x.toNat 26

theorem after_latest (n : Nat) : (after c n).latest = n := by
  induction n with
  | zero => rfl
  | succ n ih => exact congrArg (· + 1) ih

theorem after_raw (n : Nat) : (after c n).s_last_raw = readLive c n := by
  cases n with
  | zero => rfl
  | succ n => exact congrArg (fun k => readLive c (k + 1)) (after_latest n)

/-- The masked difference of two neighbouring reads. -/
theorem ticks_between {n : Nat} (hnear : c.tick (n + 1) - c.tick n < 2 ^ 26) :
    ((readLive c n - readLive c (n + 1)) &&& TIMER_COUNT_MASK).toNat =
      c.tick (n + 1) - c.tick n := by
  have hsame : (readLive c n).toNat + c.tick n ≡
      (readLive c (n + 1)).toNat + c.tick (n + 1) [MOD 2 ^ 26] := by
    have hcounts := (c.counts n).trans (c.counts (n + 1)).symm
    rw [readLive, readLive, and_mask, and_mask]
    simpa [Nat.ModEq] using hcounts
  have hlt : (readLive c (n + 1)).toNat < 2 ^ 26 := by
    rw [readLive, and_mask]
    exact Nat.mod_lt _ (by decide)
  rw [← reading_sub hlt hsame (c.mono (Nat.le_succ n)) hnear, and_mask]
  have hlast := (readLive c n).isLt
  rw [BitVec.toNat_sub]
  omega

/-- The sum is the time elapsed, as far as 64 bits hold it. -/
theorem after_total {n : Nat} (h : ∀ i < n, c.tick (i + 1) - c.tick i < 2 ^ 26) :
    (after c n).s_total_ticks = BitVec.ofNat 64 (elapsed c n) := by
  induction n with
  | zero => simp [after, timerInit, elapsed]
  | succ n ih =>
    have hbetween := ticks_between (h n (Nat.lt_succ_self n))
    have hsum : elapsed c (n + 1) = elapsed c n + (c.tick (n + 1) - c.tick n) := by
      have h0 := c.mono (Nat.zero_le n)
      have h1 := c.mono (Nat.le_add_right n 1)
      simp only [elapsed]
      omega
    have htotal : (after c (n + 1)).s_total_ticks = (after c n).s_total_ticks +
        ((readLive c n - readLive c (n + 1)) &&& TIMER_COUNT_MASK).setWidth 64 := by
      rw [← after_raw]
      exact congrArg (fun k => (after c n).s_total_ticks +
        (((after c n).s_last_raw - readLive c (k + 1)) &&& TIMER_COUNT_MASK).setWidth 64)
        (after_latest n)
    rw [htotal, ih fun i hi => h i (hi.trans (Nat.lt_succ_self n)), hsum, BitVec.ofNat_add,
      ← hbetween, BitVec.ofNat_toNat]

theorem InTime.mono {m n : Nat} (h : InTime c n) (hle : m ≤ n) : InTime c m where
  near i hi := h.near i (hi.trans_le hle)
  short := (Nat.sub_le_sub_right (c.mono hle) _).trans_lt h.short

theorem after_total_toNat {n : Nat} (h : InTime c n) :
    (after c n).s_total_ticks.toNat = elapsed c n := by
  have hshort : elapsed c n < 2 ^ 64 := h.short
  rw [after_total h.near, BitVec.toNat_ofNat, Nat.mod_eq_of_lt hshort]

/-- What the next call returns. -/
theorem timerMs_after {n : Nat} (h : InTime c (n + 1)) :
    (timerMs c (after c n)).1 = BitVec.ofNat 32 (elapsed c (n + 1) / 12000) := by
  have htotal := after_total_toNat h
  apply BitVec.eq_of_toNat_eq
  rw [BitVec.toNat_ofNat, ← htotal]
  change ((after c (n + 1)).s_total_ticks / TICKS_PER_MS).toNat % 2 ^ 32 = _
  rw [BitVec.toNat_udiv]
  rfl

theorem delayLoop_after (start ms : Word) (turns n : Nat) :
    ∃ k, (delayLoop c start ms turns (after c n)).2 = after c k ∧ n ≤ k ∧
      ((delayLoop c start ms turns (after c n)).1 = true →
        ∃ j, n ≤ j ∧ k = j + 1 ∧ ms ≤ (timerMs c (after c j)).1 - start) := by
  induction turns generalizing n with
  | zero => exact ⟨n, rfl, le_rfl, fun h => absurd h Bool.false_ne_true⟩
  | succ turns ih =>
    rw [delayLoop]
    by_cases hgo : (timerMs c (after c n)).1 - start < ms
    · simp only [if_pos hgo]
      obtain ⟨k, hk, hle, hend⟩ := ih (n + 1)
      refine ⟨k, hk, (Nat.le_succ n).trans hle, fun h => ?_⟩
      obtain ⟨j, hj, hlast⟩ := hend h
      exact ⟨j, (Nat.le_succ n).trans hj, hlast⟩
    · simp only [if_neg hgo]
      exact ⟨n + 1, rfl, Nat.le_succ n, fun _ => ⟨n, le_rfl, rfl, BitVec.not_lt.mp hgo⟩⟩

/-- Every state is one behind some number of calls of timer_ms. -/
theorem Reached.exists_after {t : State} (h : Reached c t) : ∃ n, t = after c n := by
  induction h with
  | init => exact ⟨0, rfl⟩
  | ms h ih =>
    obtain ⟨n, rfl⟩ := ih
    exact ⟨n + 1, rfl⟩
  | delay h ms turns ih =>
    obtain ⟨n, rfl⟩ := ih
    obtain ⟨k, hk, -⟩ := delayLoop_after (timerMs c (after c n)).1 ms turns (n + 1)
    exact ⟨k, hk⟩

/-- The difference of two results is that of the whole milliseconds, modulo a word. -/
theorem timerMs_sub {m n : Nat} (hle : m ≤ n) (h : InTime c (n + 1)) :
    (timerMs c (after c n)).1 - (timerMs c (after c m)).1 =
      BitVec.ofNat 32 (elapsed c (n + 1) / 12000 - elapsed c (m + 1) / 12000) := by
  have hstep : m + 1 ≤ n + 1 := Nat.add_le_add_right hle 1
  have helapsed : elapsed c (m + 1) ≤ elapsed c (n + 1) := Nat.sub_le_sub_right (c.mono hstep) _
  have hunits := Nat.div_le_div_right (c := 12000) helapsed
  rw [timerMs_after h, timerMs_after (h.mono hstep), sub_eq_iff_eq_add, ← BitVec.ofNat_add,
    Nat.sub_add_cancel hunits]

/-- The ticks between two reads, in the terms of the elapsed time. -/
theorem elapsed_sub {m n : Nat} (hle : m ≤ n) :
    elapsed c m ≤ elapsed c n ∧ elapsed c n - elapsed c m = c.tick n - c.tick m := by
  have h0 := c.mono (Nat.zero_le m)
  have hmn := c.mono hle
  simp only [elapsed]
  constructor <;> omega

theorem difference_close {m n : Nat} (hle : m ≤ n) (h : InTime c (n + 1))
    (hfew : c.tick (n + 1) - c.tick (m + 1) < (2 ^ 32 - 1) * 12000) :
    |(((timerMs c (after c n)).1 - (timerMs c (after c m)).1).toNat : ℚ) -
      ((c.tick (n + 1) - c.tick (m + 1) : ℕ) : ℚ) / 12000| < 1 := by
  obtain ⟨hsum, hticks⟩ := elapsed_sub (c := c) (Nat.add_le_add_right hle 1)
  obtain ⟨hlow, hhigh⟩ := units_bounds (by decide : 0 < 12000) hsum
  rw [hticks] at hlow hhigh
  rw [timerMs_sub hle h, BitVec.toNat_ofNat]
  generalize elapsed c (n + 1) / 12000 - elapsed c (m + 1) / 12000 = units at hlow hhigh ⊢
  generalize c.tick (n + 1) - c.tick (m + 1) = ticks at hlow hhigh hfew ⊢
  rw [Nat.mod_eq_of_lt (by omega)]
  have hlow' : (units : ℚ) * 12000 < ticks + 12000 := by exact_mod_cast hlow
  have hhigh' : (ticks : ℚ) < units * 12000 + 12000 := by exact_mod_cast hhigh
  rw [abs_lt]
  constructor <;> linarith

theorem delay_long_enough {n : Nat} {ms : Word} {turns : Nat}
    (hend : (timerDelayMs c ms turns (after c n)).1 = true)
    (h : InTime c (timerDelayMs c ms turns (after c n)).2.latest) :
    ((ms.toNat : ℤ) - 1) * 12000 <
      ((c.tick (timerDelayMs c ms turns (after c n)).2.latest - c.tick (n + 1) : ℕ) : ℤ) := by
  obtain ⟨k, hk, -, hlast⟩ :=
    delayLoop_after (c := c) (timerMs c (after c n)).1 ms turns (n + 1)
  obtain ⟨j, hj, rfl, hms⟩ := hlast hend
  have hlatest : (timerDelayMs c ms turns (after c n)).2.latest = j + 1 := by
    rw [← after_latest (c := c) (j + 1), ← hk]
    rfl
  rw [hlatest] at h ⊢
  have hle : n ≤ j := (Nat.le_add_right n 1).trans hj
  rw [timerMs_sub hle h, BitVec.le_def, BitVec.toNat_ofNat] at hms
  obtain ⟨hsum, hticks⟩ := elapsed_sub (c := c) (Nat.add_le_add_right hle 1)
  obtain ⟨hlow, -⟩ := units_bounds (by decide : 0 < 12000) hsum
  rw [hticks] at hlow
  have hmod := Nat.mod_le (elapsed c (j + 1) / 12000 - elapsed c (n + 1) / 12000) (2 ^ 32)
  omega

theorem delayLoop_returns {start ms : Word} {i j : Nat} (hle : i ≤ j)
    (hj : ms ≤ (timerMs c (after c j)).1 - start) :
    ∃ turns, (delayLoop c start ms turns (after c i)).1 = true := by
  obtain ⟨d, rfl⟩ := Nat.exists_eq_add_of_le hle
  induction d generalizing i with
  | zero =>
    have hnow : ms ≤ (timerMs c (after c i)).1 - start := hj
    refine ⟨1, ?_⟩
    rw [delayLoop, if_neg (BitVec.not_lt.mpr hnow)]
  | succ d ih =>
    by_cases hgo : (timerMs c (after c i)).1 - start < ms
    · have hnext : i + 1 + d = i + (d + 1) := by omega
      obtain ⟨turns, hturns⟩ := ih (Nat.le_add_right (i + 1) d) (hnext ▸ hj)
      refine ⟨turns + 1, ?_⟩
      rw [delayLoop, if_pos hgo]
      exact hturns
    · refine ⟨1, ?_⟩
      rw [delayLoop, if_neg hgo]

/-- A delay ends when time goes on, unless its length is within a wrap of the counter of the
longest one: a read in time cannot miss the milliseconds in which it may end. -/
theorem delay_returns {n k : Nat} {ms : Word} (hms : ms.toNat + 5593 < 2 ^ 32) (hk : n < k)
    (h : InTime c (k + 1)) (hlong : (ms.toNat + 1) * 12000 ≤ c.tick (k + 1) - c.tick (n + 1)) :
    ∃ turns, (timerDelayMs c ms turns (after c n)).1 = true := by
  have hreach : ∃ j, n < j ∧ j ≤ k ∧
      ms.toNat ≤ elapsed c (j + 1) / 12000 - elapsed c (n + 1) / 12000 := by
    obtain ⟨hsum, hticks⟩ := elapsed_sub (c := c) (Nat.add_le_add_right hk.le 1)
    obtain ⟨-, hhigh⟩ := units_bounds (by decide : 0 < 12000) hsum
    exact ⟨k, hk, le_rfl, by omega⟩
  classical
  obtain ⟨hn, hjk, hj⟩ := Nat.find_spec hreach
  have hmin := @Nat.find_min _ _ hreach
  generalize Nat.find hreach = j at hn hjk hj hmin
  have hnear := h.near j (Nat.lt_succ_of_le hjk)
  obtain ⟨hsum, hticks⟩ := elapsed_sub (c := c) (Nat.le_add_right j 1)
  have hbefore : elapsed c j / 12000 - elapsed c (n + 1) / 12000 ≤ ms.toNat := by
    obtain hnext | rfl := Nat.lt_or_eq_of_le (Nat.succ_le_of_lt hn)
    · obtain ⟨i, rfl⟩ := Nat.exists_eq_add_of_le' (Nat.one_le_of_lt hn)
      have hnot := hmin (Nat.lt_add_one i)
      omega
    · exact Nat.sub_self _ ▸ Nat.zero_le _
  have hlast : ms ≤ (timerMs c (after c j)).1 - (timerMs c (after c n)).1 := by
    have hin : InTime c (j + 1) := h.mono (Nat.add_le_add_right hjk 1)
    rw [timerMs_sub hn.le hin, BitVec.le_def, BitVec.toNat_ofNat, Nat.mod_eq_of_lt (by omega)]
    exact hj
  obtain ⟨turns, hturns⟩ := delayLoop_returns (i := n + 1) hn hlast
  exact ⟨turns, hturns⟩

/-- In every run of timer_ms and timer_delay_ms calls whose reads come in time: the sum is the true
number of ticks since timer_init, timer_ms returns its whole milliseconds, differences of results
are less than one off, and a delay takes its time. -/
theorem timekeeping (c : Counter) :
    (∀ t, Reached c t → InTime c t.latest → t.s_total_ticks.toNat = elapsed c t.latest) ∧
    (∀ t, Reached c t → InTime c (t.latest + 1) →
      (timerMs c t).1.toNat = elapsed c (t.latest + 1) / 12000 % 2 ^ 32) ∧
    (∀ t t', Reached c t → Reached c t' → t.latest ≤ t'.latest → InTime c (t'.latest + 1) →
      c.tick (t'.latest + 1) - c.tick (t.latest + 1) < (2 ^ 32 - 1) * 12000 →
      |(((timerMs c t').1 - (timerMs c t).1).toNat : ℚ) -
        ((c.tick (t'.latest + 1) - c.tick (t.latest + 1) : ℕ) : ℚ) / 12000| < 1) ∧
    ∀ t, Reached c t → ∀ ms turns, let d := timerDelayMs c ms turns t
      d.1 = true → InTime c d.2.latest →
        ((ms.toNat : ℤ) - 1) * 12000 < ((c.tick d.2.latest - c.tick (t.latest + 1) : ℕ) : ℤ) := by
  refine ⟨?_, ?_, ?_, ?_⟩
  · intro t ht h
    obtain ⟨n, rfl⟩ := ht.exists_after
    rw [after_latest] at h ⊢
    exact after_total_toNat h
  · intro t ht h
    obtain ⟨n, rfl⟩ := ht.exists_after
    rw [after_latest] at h ⊢
    rw [timerMs_after h, BitVec.toNat_ofNat]
  · intro t t' ht ht' hle h hfew
    obtain ⟨m, rfl⟩ := ht.exists_after
    obtain ⟨n, rfl⟩ := ht'.exists_after
    simp only [after_latest] at hle h hfew ⊢
    exact difference_close hle h hfew
  · intro t ht ms turns d hend h
    obtain ⟨n, rfl⟩ := ht.exists_after
    rw [after_latest]
    exact delay_long_enough hend h

def steady : Counter :=
  .loaded (fun n => 60000000 * n) fun _ _ h => Nat.mul_le_mul_left 60000000 h

theorem timekeeping_steady :
    let t := (timerMs steady (timerMs steady (timerInit steady)).2).2
    let d := timerDelayMs steady 12000 4 t
    2 ^ 26 < elapsed steady 2 ∧ t.s_total_ticks.toNat = elapsed steady 2 ∧ d.1 = true ∧
      ((12000 : Word).toNat - 1 : ℤ) * 12000 <
        ((steady.tick d.2.latest - steady.tick (t.latest + 1) : ℕ) : ℤ) := by
  intro t d
  have ht : Reached steady t := .ms (.ms .init)
  have hend : d.1 = true := by decide +kernel
  have hlatest : d.2.latest = 6 := by decide +kernel
  obtain ⟨hsum, -, -, hdelay⟩ := timekeeping steady
  refine ⟨by decide, hsum t ht ⟨by decide, by decide⟩, hend, hdelay t ht 12000 4 hend ?_⟩
  change InTime steady d.2.latest
  rw [hlatest]
  exact ⟨by decide, by decide⟩

end AipcOs.Timer
