import AipcOs.ByteMemory
import AipcOs.Histories
import AipcOs.SampleRuns

/-! anyka-l2rng: the health tests that every sample passes on its way out, and the driver that
stops for good when they fail twice in a row. -/
namespace AipcOs.L2Rng
open ByteMemory Histories SampleRuns

def APT_WINDOW : Nat := 512
def STARTUP_SAMPLES : Nat := 1024
def RCT_CUTOFF : Nat := 401
def APT_CUTOFF : Nat := 510
def FAIL_WINDOW : Nat := 4096

def EIO : Int := 5

structure Rng where
  rct_last : Word
  rct_count : Nat
  apt_ref : Word
  apt_count : Nat
  apt_pos : Nat
  failed : Bool
  seen_fail : Bool
  since_fail : Nat

/-- As devm_kzalloc hands it out. -/
def fresh : Rng := ⟨0, 0, 0, 0, 0, false, false, 0⟩

def healthReset (p : Rng) : Rng := { p with rct_count := 0, apt_pos := APT_WINDOW }

def aptFeed (p : Rng) (sample : Word) : Bool × Rng :=
  if p.apt_pos ≥ APT_WINDOW then
    (true, { p with apt_ref := sample, apt_count := 1, apt_pos := 1 })
  else if sample = p.apt_ref then
    (decide (p.apt_count + 1 < APT_CUTOFF),
      { p with apt_pos := p.apt_pos + 1, apt_count := p.apt_count + 1 })
  else (true, { p with apt_pos := p.apt_pos + 1 })

def healthFeed (p : Rng) (sample : Word) : Bool × Rng :=
  if p.rct_count ≠ 0 ∧ sample = p.rct_last then
    if p.rct_count + 1 ≥ RCT_CUTOFF then (false, { p with rct_count := p.rct_count + 1 })
    else aptFeed { p with rct_count := p.rct_count + 1 } sample
  else aptFeed { p with rct_last := sample, rct_count := 1 } sample

/-- The body of the loop of l2rng_read, on one sample. -/
def take (p : Rng) (sample : Word) : Bool × Rng :=
  let since_fail := if p.since_fail < FAIL_WINDOW then p.since_fail + 1 else p.since_fail
  let f := healthFeed { p with since_fail := since_fail } sample
  if f.1 then f
  else if f.2.seen_fail && f.2.since_fail < FAIL_WINDOW then (false, { f.2 with failed := true })
  else (false, healthReset { f.2 with seen_fail := true, since_fail := 0 })

structure Sample where
  value : Word
  passed : Bool

structure Read where
  ret : Int
  out : List Word
  samples : List Sample

structure Device where
  priv : Rng
  taken : Nat

variable (src : Nat → Word)

def readWords (words : Word) : (left : Nat) → Device → Read × Device
  | 0, d => (⟨(words * 4).toInt, [], []⟩, d)
  | left + 1, d =>
    let sample := src d.taken
    let t := take d.priv sample
    let d := ⟨t.2, d.taken + 1⟩
    if t.1 then
      let r := readWords words left d
      ({ r.1 with out := sample :: r.1.out, samples := ⟨sample, true⟩ :: r.1.samples }, r.2)
    else (⟨- EIO, [], [⟨sample, false⟩]⟩, d)

def read (d : Device) (max : Word) : Read × Device :=
  let words := max / 4
  if d.priv.failed then (⟨- EIO, [], []⟩, d) else readWords src words words.toNat d

def reads : List Word → Device → List Read × Device
  | [], d => ([], d)
  | max :: sizes, d =>
    let r := read src d max
    let rest := reads sizes r.2
    (r.1 :: rest.1, rest.2)

def startupFeed : (left : Nat) → Device → Bool × Device
  | 0, d => (true, d)
  | left + 1, d =>
    let f := healthFeed d.priv (src d.taken)
    if f.1 then startupFeed left ⟨f.2, d.taken + 1⟩ else (false, ⟨f.2, d.taken + 1⟩)

def startupTest (d : Device) : Int × Device :=
  let r := startupFeed src STARTUP_SAMPLES { d with priv := healthReset d.priv }
  if r.1 then (0, { r.2 with priv := healthReset r.2.priv }) else (- EIO, r.2)

/-- The samples since the reset make the tests fail: a run or a count reaches its cutoff. -/
def Rejects (xs : List Word) : Prop :=
  currentRun xs = RCT_CUTOFF ∨ firstCount (window APT_WINDOW xs) = APT_CUTOFF

instance (xs : List Word) : Decidable (Rejects xs) :=
  inferInstanceAs (Decidable (_ ∨ _))

structure KeepsRun (p : Rng) (xs : List Word) : Prop where
  count : p.rct_count = currentRun xs
  last : ∀ front x, xs = front ++ [x] → p.rct_last = x

structure KeepsWindow (p : Rng) (xs : List Word) : Prop where
  pos : p.apt_pos = if xs.length % APT_WINDOW = 0 then APT_WINDOW else xs.length % APT_WINDOW
  kept : ∀ first rest, window APT_WINDOW xs = first :: rest →
    p.apt_ref = first ∧ p.apt_count = firstCount (first :: rest)

structure Below (xs : List Word) : Prop where
  run : currentRun xs < RCT_CUTOFF
  window : firstCount (window APT_WINDOW xs) < APT_CUTOFF

variable {p : Rng} {xs : List Word}

theorem keepsRun_reset (p : Rng) : KeepsRun (healthReset p) [] :=
  ⟨rfl, by simp⟩

theorem keepsWindow_reset (p : Rng) : KeepsWindow (healthReset p) [] :=
  ⟨rfl, by simp [window]⟩

theorem below_nil : Below [] := ⟨by decide, by decide⟩

theorem aptPos_succ (n : Nat) : n % APT_WINDOW + 1 =
    if (n + 1) % APT_WINDOW = 0 then APT_WINDOW else (n + 1) % APT_WINDOW := by
  split
  · rename_i hfull
    simp only [APT_WINDOW] at hfull ⊢
    omega
  · rename_i hmore
    simp only [APT_WINDOW] at hmore ⊢
    omega

/-- Where the proportion test stands inside a window. -/
theorem KeepsWindow.inside (h : KeepsWindow p xs) (hin : xs.length % APT_WINDOW ≠ 0) :
    (∃ rest, window APT_WINDOW xs = p.apt_ref :: rest ∧
      p.apt_count = firstCount (p.apt_ref :: rest)) ∧
    p.apt_pos = xs.length % APT_WINDOW ∧ ¬p.apt_pos ≥ APT_WINDOW := by
  have hne : xs ≠ [] := fun hnil => hin (by rw [hnil]; rfl)
  have hlen : 0 < (window APT_WINDOW xs).length := by
    rw [window_length xs hne]
    exact Nat.succ_pos _
  obtain ⟨first, rest, hold⟩ := List.exists_cons_of_length_pos hlen
  obtain ⟨rfl, hcount⟩ := h.kept first rest hold
  have hpos : p.apt_pos = xs.length % APT_WINDOW := by rw [h.pos, if_neg hin]
  refine ⟨⟨rest, hold, hcount⟩, hpos, ?_⟩
  rw [hpos]
  exact Nat.not_le_of_lt (Nat.mod_lt _ (by decide))

theorem keepsWindow_snoc {first x : Word} {rest : List Word}
    (hin : xs.length % APT_WINDOW ≠ 0) (hold : window APT_WINDOW xs = first :: rest)
    (hpos : p.apt_pos = xs.length % APT_WINDOW + 1) (href : p.apt_ref = first)
    (hcount : p.apt_count = firstCount (first :: rest ++ [x])) : KeepsWindow p (xs ++ [x]) := by
  have hwindow := window_snoc xs x hin
  rw [hold] at hwindow
  refine ⟨?_, ?_⟩
  · rw [hpos, aptPos_succ, List.length_append, List.length_singleton]
  · intro first' rest' hw
    rw [hwindow] at hw
    obtain ⟨rfl, rfl⟩ := List.cons.inj hw
    exact ⟨href, hcount⟩

structure AptFed (p : Rng) (xs : List Word) (x : Word) : Prop where
  keeps : KeepsWindow (aptFeed p x).2 (xs ++ [x])
  bound : firstCount (window APT_WINDOW (xs ++ [x])) ≤ APT_CUTOFF
  rejects : (aptFeed p x).1 = false ↔ firstCount (window APT_WINDOW (xs ++ [x])) = APT_CUTOFF

/-- The first sample of a window is what the others are compared to. -/
theorem aptFed_new (h : KeepsWindow p xs) (hnew : xs.length % APT_WINDOW = 0) (x : Word) :
    AptFed p xs x := by
  have hwindow := window_snoc_new xs x hnew
  have hfeed : aptFeed p x = (true, { p with apt_ref := x, apt_count := 1, apt_pos := 1 }) := by
    simp [aptFeed, h.pos, hnew]
  have hkeeps : KeepsWindow { p with apt_ref := x, apt_count := 1, apt_pos := 1 } (xs ++ [x]) := by
    refine ⟨?_, ?_⟩
    · have hone : (xs.length + 1) % APT_WINDOW = 1 := by
        simp only [APT_WINDOW] at hnew ⊢
        omega
      simp [hone]
    · intro first rest hw
      rw [hwindow] at hw
      obtain ⟨rfl, rfl⟩ := List.cons.inj hw
      exact ⟨rfl, rfl⟩
  refine ⟨hfeed ▸ hkeeps, ?_, ?_⟩
  · simp [hwindow, firstCount, APT_CUTOFF]
  · simp [hfeed, hwindow, firstCount, APT_CUTOFF]

theorem aptFed_inside (h : KeepsWindow p xs) (hin : xs.length % APT_WINDOW ≠ 0)
    (hb : firstCount (window APT_WINDOW xs) < APT_CUTOFF) (x : Word) : AptFed p xs x := by
  obtain ⟨⟨rest, hold, hcount⟩, hpos, hlt⟩ := h.inside hin
  have hwindow : window APT_WINDOW (xs ++ [x]) = p.apt_ref :: rest ++ [x] := by
    rw [window_snoc xs x hin, hold]
  have hsnoc := firstCount_snoc p.apt_ref x rest
  rw [hold] at hb
  by_cases heq : x = p.apt_ref
  · have hfeed : aptFeed p x = (decide (p.apt_count + 1 < APT_CUTOFF),
        { p with apt_pos := p.apt_pos + 1, apt_count := p.apt_count + 1 }) := by
      simp [aptFeed, hlt, heq]
    rw [if_pos heq] at hsnoc
    refine ⟨?_, ?_, ?_⟩
    · rw [hfeed]
      exact keepsWindow_snoc hin hold (congrArg (· + 1) hpos) rfl (hcount ▸ hsnoc.symm)
    · rw [hwindow, hsnoc]
      exact hb
    · rw [hfeed, hwindow, hsnoc, hcount, decide_eq_false_iff_not]
      omega
  · have hfeed : aptFeed p x = (true, { p with apt_pos := p.apt_pos + 1 }) := by
      simp [aptFeed, hlt, heq]
    rw [if_neg heq] at hsnoc
    refine ⟨?_, ?_, ?_⟩
    · rw [hfeed]
      exact keepsWindow_snoc hin hold (congrArg (· + 1) hpos) rfl (hcount.trans hsnoc.symm)
    · rw [hwindow, hsnoc]
      exact hb.le
    · rw [hfeed, hwindow, hsnoc]
      simp only [Bool.true_eq_false, false_iff]
      omega

theorem aptFeed_fed (h : KeepsWindow p xs) (hb : firstCount (window APT_WINDOW xs) < APT_CUTOFF)
    (x : Word) : AptFed p xs x := by
  by_cases hnew : xs.length % APT_WINDOW = 0
  · exact aptFed_new h hnew x
  · exact aptFed_inside h hnew hb x

structure Fed (p : Rng) (xs : List Word) (x : Word) : Prop where
  run : KeepsRun (healthFeed p x).2 (xs ++ [x])
  rejects : (healthFeed p x).1 = false ↔ Rejects (xs ++ [x])
  window : (healthFeed p x).1 = true → KeepsWindow (healthFeed p x).2 (xs ++ [x])
  below : (healthFeed p x).1 = true → Below (xs ++ [x])

theorem aptFeed_run (p : Rng) (x : Word) :
    (aptFeed p x).2.rct_count = p.rct_count ∧ (aptFeed p x).2.rct_last = p.rct_last := by
  simp only [aptFeed]
  split
  · exact ⟨rfl, rfl⟩
  · split <;> exact ⟨rfl, rfl⟩

/-- A run below its cutoff leaves the decision to the proportion test. -/
theorem fed_of_below {q : Rng} {x : Word} (hfeed : healthFeed p x = aptFeed q x)
    (hrun : KeepsRun q (xs ++ [x])) (hlt : currentRun (xs ++ [x]) < RCT_CUTOFF)
    (hw : KeepsWindow q xs) (hb : Below xs) : Fed p xs x := by
  obtain ⟨hkeeps, hle, hreject⟩ := aptFeed_fed hw hb.window x
  obtain ⟨hcount, hlast⟩ := aptFeed_run q x
  refine ⟨?_, ?_, fun _ => hfeed ▸ hkeeps, fun hpass => ⟨hlt, ?_⟩⟩
  · rw [hfeed]
    exact ⟨hcount.trans hrun.count, fun front y hy => hlast.trans (hrun.last front y hy)⟩
  · rw [hfeed, hreject, Rejects]
    exact ⟨Or.inr, fun h => h.resolve_left (Nat.ne_of_lt hlt)⟩
  · rw [hfeed] at hpass
    have hne := mt hreject.mpr (by simp [hpass])
    omega

theorem keepsRun_snoc {q : Rng} {x : Word} (hcount : q.rct_count = currentRun (xs ++ [x]))
    (hlast : q.rct_last = x) : KeepsRun q (xs ++ [x]) := by
  refine ⟨hcount, fun front y hy => ?_⟩
  obtain ⟨_, hxy⟩ := List.append_inj' hy rfl
  exact hlast.trans (List.head_eq_of_cons_eq hxy)

theorem fed_of_restart (hw : KeepsWindow p xs) (hb : Below xs) {x : Word}
    (hne : ¬(p.rct_count ≠ 0 ∧ x = p.rct_last)) (hone : currentRun (xs ++ [x]) = 1) :
    Fed p xs x := by
  have hfeed : healthFeed p x = aptFeed { p with rct_last := x, rct_count := 1 } x := if_neg hne
  exact fed_of_below hfeed (keepsRun_snoc hone.symm rfl) (hone ▸ by decide) ⟨hw.pos, hw.kept⟩ hb

theorem healthFeed_fed (hr : KeepsRun p xs) (hw : KeepsWindow p xs) (hb : Below xs) (x : Word) :
    Fed p xs x := by
  obtain rfl | ⟨front, last, rfl⟩ := xs.eq_nil_or_concat'
  · exact fed_of_restart hw hb (fun h => h.1 hr.count) rfl
  · have hlast : p.rct_last = last := hr.last front last rfl
    by_cases heq : x = last
    · have hsame : p.rct_count ≠ 0 ∧ x = p.rct_last :=
        ⟨by simp [hr.count, currentRun], heq.trans hlast.symm⟩
      have hrun : p.rct_count + 1 = currentRun (front ++ [last] ++ [x]) := by
        rw [heq, currentRun_snoc_self, hr.count]
      by_cases hcut : p.rct_count + 1 ≥ RCT_CUTOFF
      · have hfeed : healthFeed p x = (false, { p with rct_count := p.rct_count + 1 }) := by
          rw [healthFeed, if_pos hsame, if_pos hcut]
        have hreject : Rejects (front ++ [last] ++ [x]) := by
          have hlt := hb.run
          rw [← hr.count] at hlt
          exact Or.inl (hrun.symm.trans (by omega))
        rw [← hlast] at heq
        refine ⟨?_, ?_, ?_, ?_⟩ <;> rw [hfeed]
        · exact keepsRun_snoc hrun heq.symm
        · exact iff_of_true rfl hreject
        · exact fun h => absurd h Bool.false_ne_true
        · exact fun h => absurd h Bool.false_ne_true
      · have hfeed : healthFeed p x = aptFeed { p with rct_count := p.rct_count + 1 } x := by
          rw [healthFeed, if_pos hsame, if_neg hcut]
        exact fed_of_below hfeed (keepsRun_snoc hrun (hlast.trans heq.symm))
          (hrun ▸ Nat.not_le.mp hcut) ⟨hw.pos, hw.kept⟩ hb
    · exact fed_of_restart hw hb (fun h => heq (h.2.trans hlast)) (currentRun_snoc_ne front heq)

def sinceReset (h : List Sample) : List Word :=
  h.foldl (fun xs s => if s.passed then xs ++ [s.value] else []) []

/-- A sample is rejected fewer than FAIL_WINDOW samples after the one rejected before it. -/
def Latched (h : List Sample) : Prop :=
  ∃ before r mid s after, h = before ++ r :: mid ++ s :: after ∧ r.passed = false ∧
    s.passed = false ∧ (∀ m ∈ mid, m.passed = true) ∧ mid.length + 1 < FAIL_WINDOW

variable {h : List Sample}

theorem sinceReset_snoc (h : List Sample) (s : Sample) :
    sinceReset (h ++ [s]) = if s.passed then sinceReset h ++ [s.value] else [] := by
  simp [sinceReset]

theorem sinceReset_split {before mid : List Sample} {r : Sample} (hr : r.passed = false)
    (hmid : ∀ m ∈ mid, m.passed = true) :
    (sinceReset (before ++ r :: mid)).length = mid.length := by
  induction mid using List.reverseRecOn with
  | nil => simp [sinceReset_snoc, hr]
  | append_singleton mid m ih =>
    have hm : m.passed = true := hmid m (by simp)
    have hrest := ih fun k hk => hmid k (by simp [hk])
    rw [← List.cons_append, ← List.append_assoc, sinceReset_snoc, if_pos hm]
    simp [hrest]

/-- The new sample can only latch together with the last one rejected before it. -/
theorem latched_snoc (h : List Sample) (s : Sample) :
    Latched (h ++ [s]) ↔ Latched h ∨ s.passed = false ∧ (∃ r ∈ h, r.passed = false) ∧
      (sinceReset h).length + 1 < FAIL_WINDOW := by
  constructor
  · intro ⟨before, r, mid, s', after, heq, hr, hs', hmid, hlt⟩
    obtain ⟨rfl, rfl⟩ | ⟨rest, hold⟩ := entry_of_snoc heq
    · refine Or.inr ⟨hs', ⟨r, by simp, hr⟩, ?_⟩
      rwa [sinceReset_split hr hmid]
    · exact Or.inl ⟨before, r, mid, s', rest, hold, hr, hs', hmid, hlt⟩
  · intro hor
    obtain ⟨before, r, mid, s', after, rfl, hr, hs', hmid, hlt⟩ | ⟨hs, hex, hlt⟩ := hor
    · exact ⟨before, r, mid, s', after ++ [s], by simp, hr, hs', hmid, hlt⟩
    · obtain ⟨before, r, mid, rfl, hr, hafter⟩ := exists_last_entry hex
      have hmid (m) (hm : m ∈ mid) : m.passed = true := Bool.not_eq_false _ ▸ hafter m hm
      rw [sinceReset_split hr hmid] at hlt
      exact ⟨before, r, mid, s, [], by simp, hr, hs, hmid, hlt⟩

theorem aptFeed_frame (p : Rng) (x : Word) :
    (aptFeed p x).2.failed = p.failed ∧ (aptFeed p x).2.seen_fail = p.seen_fail ∧
      (aptFeed p x).2.since_fail = p.since_fail := by
  simp only [aptFeed]
  split
  · exact ⟨rfl, rfl, rfl⟩
  · split <;> exact ⟨rfl, rfl, rfl⟩

/-- The tests keep their hands off the driver's own fields. -/
theorem healthFeed_frame (p : Rng) (x : Word) :
    (healthFeed p x).2.failed = p.failed ∧ (healthFeed p x).2.seen_fail = p.seen_fail ∧
      (healthFeed p x).2.since_fail = p.since_fail := by
  simp only [healthFeed]
  split
  · split
    · exact ⟨rfl, rfl, rfl⟩
    · exact aptFeed_frame _ x
  · exact aptFeed_frame _ x

/-- Every sample was judged by the samples since the reset before it. -/
def Judged (h : List Sample) : Prop :=
  ∀ before s after, h = before ++ s :: after →
    (s.passed = false ↔ Rejects (sinceReset before ++ [s.value]))

theorem judged_snoc {s : Sample} (hj : Judged h)
    (hs : s.passed = false ↔ Rejects (sinceReset h ++ [s.value])) : Judged (h ++ [s]) :=
  forall_entry_snoc hj hs

structure Live (h : List Sample) (p : Rng) : Prop where
  failed : p.failed = false
  seen : p.seen_fail = true ↔ ∃ s ∈ h, s.passed = false
  since : p.since_fail = min FAIL_WINDOW (sinceReset h).length
  run : KeepsRun p (sinceReset h)
  window : KeepsWindow p (sinceReset h)
  below : Below (sinceReset h)
  judged : Judged h
  quiet : ¬Latched h

structure Dead (h : List Sample) (p : Rng) : Prop where
  failed : p.failed = true
  judged : Judged h
  latched : Latched h

def counted (p : Rng) : Rng :=
  { p with since_fail := if p.since_fail < FAIL_WINDOW then p.since_fail + 1 else p.since_fail }

@[simp] theorem counted_seen_fail (p : Rng) : (counted p).seen_fail = p.seen_fail := rfl

theorem take_pass {x : Word} (hpass : (healthFeed (counted p) x).1 = true) :
    take p x = healthFeed (counted p) x :=
  if_pos hpass

theorem take_reject {x : Word} (hreject : (healthFeed (counted p) x).1 = false) :
    take p x = if (healthFeed (counted p) x).2.seen_fail &&
        (healthFeed (counted p) x).2.since_fail < FAIL_WINDOW
      then (false, { (healthFeed (counted p) x).2 with failed := true })
      else (false,
        healthReset { (healthFeed (counted p) x).2 with seen_fail := true, since_fail := 0 }) :=
  if_neg fun hpass => Bool.false_ne_true (hreject.symm.trans hpass)

theorem counted_since (hl : Live h p) :
    (counted p).since_fail = min FAIL_WINDOW ((sinceReset h).length + 1) := by
  have hold := hl.since
  simp only [counted]
  split <;> omega

theorem counted_fed (hl : Live h p) (x : Word) : Fed (counted p) (sinceReset h) x := by
  have hrun : KeepsRun (counted p) (sinceReset h) := ⟨hl.run.count, hl.run.last⟩
  have hwindow : KeepsWindow (counted p) (sinceReset h) := ⟨hl.window.pos, hl.window.kept⟩
  exact healthFeed_fed hrun hwindow hl.below x

theorem live_pass (hl : Live h p) {x : Word} (hpass : (healthFeed (counted p) x).1 = true) :
    Live (h ++ [⟨x, true⟩]) (healthFeed (counted p) x).2 := by
  have hfed := counted_fed hl x
  obtain ⟨hfailed, hseen, hsince⟩ := healthFeed_frame (counted p) x
  have hreset : sinceReset (h ++ [⟨x, true⟩]) = sinceReset h ++ [x] := by simp [sinceReset_snoc]
  exact {
    failed := hfailed.trans hl.failed
    seen := by simp [hseen, hl.seen]
    since := by rw [hreset, hsince, List.length_append]; exact counted_since hl
    run := hreset ▸ hfed.run
    window := hreset ▸ hfed.window hpass
    below := hreset ▸ hfed.below hpass
    judged := judged_snoc hl.judged (hpass ▸ hfed.rejects)
    quiet := by simp [latched_snoc, hl.quiet] }

/-- The second failure in a window is what the driver goes by when it stops. -/
theorem stops_iff_latched (hl : Live h p) (x : Word) :
    ((healthFeed (counted p) x).2.seen_fail &&
      (healthFeed (counted p) x).2.since_fail < FAIL_WINDOW) = true ↔
        Latched (h ++ [⟨x, false⟩]) := by
  obtain ⟨_, hseen, hsince⟩ := healthFeed_frame (counted p) x
  have hlt : (counted p).since_fail < FAIL_WINDOW ↔ (sinceReset h).length + 1 < FAIL_WINDOW := by
    rw [counted_since hl]
    omega
  rw [hseen, hsince, latched_snoc, ← hl.seen, ← hlt]
  simp [hl.quiet]

theorem take_keeps (hl : Live h p) (x : Word) :
    Live (h ++ [⟨x, (take p x).1⟩]) (take p x).2 ∨
      (take p x).1 = false ∧ Dead (h ++ [⟨x, (take p x).1⟩]) (take p x).2 := by
  cases hpass : (healthFeed (counted p) x).1 with
  | true =>
    left
    rw [take_pass hpass, hpass]
    exact live_pass hl hpass
  | false =>
    have hjudged : Judged (h ++ [⟨x, false⟩]) :=
      judged_snoc hl.judged (hpass ▸ (counted_fed hl x).rejects)
    have hlatch := stops_iff_latched hl x
    rw [take_reject hpass]
    split
    · rename_i hstop
      exact Or.inr ⟨rfl, rfl, hjudged, hlatch.mp hstop⟩
    · rename_i hgo
      have hreset : sinceReset (h ++ [⟨x, false⟩]) = [] := by simp [sinceReset_snoc]
      left
      exact {
        failed := (healthFeed_frame (counted p) x).1.trans hl.failed
        seen := by simp [healthReset]
        since := by simp [hreset, healthReset]
        run := hreset ▸ keepsRun_reset _
        window := hreset ▸ keepsWindow_reset _
        below := hreset ▸ below_nil
        judged := hjudged
        quiet := fun hx => hgo (hlatch.mpr hx) }

def After (h : List Sample) (p : Rng) : Prop := Live h p ∨ Dead h p

/-- What a call may return: words that passed, and -EIO as soon as a sample was rejected. -/
structure Answered (r : Read) : Prop where
  out : r.out = (r.samples.filter Sample.passed).map Sample.value
  ret : ∀ s ∈ r.samples, s.passed = false → r.ret = - EIO

def ReadsOn (src : Nat → Word) (n : Nat) (samples : List Sample) : Prop :=
  samples.map Sample.value = (List.range samples.length).map fun i => src (n + i)

variable {src : Nat → Word}

theorem readsOn_append {n : Nat} {a b : List Sample} (ha : ReadsOn src n a)
    (hb : ReadsOn src (n + a.length) b) : ReadsOn src n (a ++ b) := by
  rw [ReadsOn, List.map_append, ha, hb, List.length_append, List.range_add, List.map_append,
    List.map_map]
  simp [Function.comp_def, Nat.add_assoc]

theorem readsOn_cons {n : Nat} {b : List Sample} (v : Bool) (hb : ReadsOn src (n + 1) b) :
    ReadsOn src n (⟨src n, v⟩ :: b) :=
  readsOn_append (a := [⟨src n, v⟩]) rfl hb

theorem readWords_spec (src : Nat → Word) (words : Word) (left : Nat) {d : Device} (hl : Live h d.priv) :
    let r := readWords src words left d
    After (h ++ r.1.samples) r.2.priv ∧ Answered r.1 ∧ ReadsOn src d.taken r.1.samples ∧
      r.2.taken = d.taken + r.1.samples.length := by
  induction left generalizing h d with
  | zero => exact ⟨Or.inl (by simpa [readWords] using hl), ⟨rfl, by simp [readWords]⟩, rfl, rfl⟩
  | succ left ih =>
    have hkeeps := take_keeps hl (src d.taken)
    cases hpass : (take d.priv (src d.taken)).1 with
    | true =>
      rw [hpass] at hkeeps
      obtain hlive | ⟨hfalse, _⟩ := hkeeps
      · let d' : Device := ⟨(take d.priv (src d.taken)).2, d.taken + 1⟩
        obtain ⟨hafter, hanswered, hreads, htaken⟩ := ih (d := d') hlive
        have hstep : readWords src words (left + 1) d =
            ({ (readWords src words left d').1 with
              out := src d.taken :: (readWords src words left d').1.out
              samples := ⟨src d.taken, true⟩ :: (readWords src words left d').1.samples },
              (readWords src words left d').2) := if_pos hpass
        rw [hstep]
        refine ⟨by simpa using hafter, ⟨?_, ?_⟩, readsOn_cons true hreads, ?_⟩
        · simp [hanswered.out]
        · intro s hs hs0
          obtain rfl | hs := List.mem_cons.mp hs
          · cases hs0
          · exact hanswered.ret s hs hs0
        · rw [htaken, List.length_cons, Nat.add_comm _ 1, ← Nat.add_assoc]
      · cases hfalse
    | false =>
      have hstep : readWords src words (left + 1) d =
          (⟨- EIO, [], [⟨src d.taken, false⟩]⟩, ⟨(take d.priv (src d.taken)).2, d.taken + 1⟩) :=
        if_neg (by simp [hpass])
      rw [hpass] at hkeeps
      rw [hstep]
      exact ⟨hkeeps.imp id And.right, ⟨rfl, fun _ _ _ => rfl⟩, rfl, rfl⟩

/-- A call whose samples all pass fills the buffer. -/
theorem readWords_full (src : Nat → Word) (words : Word) (left : Nat) (d : Device)
    (hall : ∀ s ∈ (readWords src words left d).1.samples, s.passed = true) :
    (readWords src words left d).1.ret = (words * 4).toInt ∧
      (readWords src words left d).1.samples.length = left := by
  induction left generalizing d with
  | zero => exact ⟨rfl, rfl⟩
  | succ left ih =>
    simp only [readWords] at hall ⊢
    split
    · rename_i hpass
      rw [if_pos hpass] at hall
      obtain ⟨hret, hlen⟩ := ih _ (List.forall_mem_cons.mp hall).2
      exact ⟨hret, congrArg (· + 1) hlen⟩
    · rename_i hpass
      rw [if_neg hpass] at hall
      exact absurd (hall _ List.mem_cons_self) Bool.false_ne_true

theorem read_spec (src : Nat → Word) {d : Device} (ha : After h d.priv) (max : Word) :
    let r := read src d max
    After (h ++ r.1.samples) r.2.priv ∧ Answered r.1 ∧ ReadsOn src d.taken r.1.samples ∧
      r.2.taken = d.taken + r.1.samples.length := by
  obtain hl | hd := ha
  · have hread : read src d max = readWords src (max / 4) (max / 4).toNat d := by
      simp [read, hl.failed]
    rw [hread]
    exact readWords_spec src (max / 4) (max / 4).toNat hl
  · have hread : read src d max = (⟨- EIO, [], []⟩, d) := by
      simp [read, hd.failed]
    rw [hread]
    exact ⟨Or.inr (by simpa using hd), ⟨rfl, by simp⟩, rfl, rfl⟩

/-- A run of calls, from a driver behind the samples `h`. -/
theorem reads_spec (src : Nat → Word) (sizes : List Word) {d : Device} (ha : After h d.priv) :
    let r := reads src sizes d
    After (h ++ r.1.flatMap Read.samples) r.2.priv ∧ (∀ q ∈ r.1, Answered q) ∧
      ReadsOn src d.taken (r.1.flatMap Read.samples) := by
  induction sizes generalizing h d with
  | nil => exact ⟨by simpa [reads] using ha, by simp [reads], rfl⟩
  | cons max sizes ih =>
    obtain ⟨hafter, hanswered, hreads, htaken⟩ := read_spec src ha max
    obtain ⟨hrest, hall, hon⟩ := ih hafter
    rw [htaken] at hon
    simp only [reads, List.flatMap_cons, List.forall_mem_cons]
    exact ⟨by rwa [← List.append_assoc], ⟨hanswered, hall⟩, readsOn_append hreads hon⟩

theorem startupFeed_spec (src : Nat → Word) (left : Nat) (d : Device) :
    let r := startupFeed src left d
    (r.2.priv.failed = d.priv.failed ∧ r.2.priv.seen_fail = d.priv.seen_fail ∧
      r.2.priv.since_fail = d.priv.since_fail) ∧
    (r.1 = true → r.2.taken = d.taken + left) := by
  induction left generalizing d with
  | zero => exact ⟨⟨rfl, rfl, rfl⟩, fun _ => rfl⟩
  | succ left ih =>
    obtain ⟨hfailed, hseen, hsince⟩ := healthFeed_frame d.priv (src d.taken)
    cases hpass : (healthFeed d.priv (src d.taken)).1 with
    | true =>
      let d' : Device := ⟨(healthFeed d.priv (src d.taken)).2, d.taken + 1⟩
      have hstep : startupFeed src (left + 1) d = startupFeed src left d' := if_pos hpass
      obtain ⟨⟨hfailed', hseen', hsince'⟩, htaken⟩ := ih d'
      rw [hstep]
      refine ⟨⟨hfailed'.trans hfailed, hseen'.trans hseen, hsince'.trans hsince⟩, fun hr => ?_⟩
      rw [htaken hr, Nat.add_comm left 1, ← Nat.add_assoc]
    | false =>
      have hstep : startupFeed src (left + 1) d =
          (false, ⟨(healthFeed d.priv (src d.taken)).2, d.taken + 1⟩) := if_neg (by simp [hpass])
      rw [hstep]
      exact ⟨⟨hfailed, hseen, hsince⟩, fun hr => absurd hr Bool.false_ne_true⟩

theorem live_reset {p : Rng} (hfailed : p.failed = false) (hseen : p.seen_fail = false)
    (hsince : p.since_fail = 0) : Live [] (healthReset p) where
  failed := hfailed
  seen := by simp [healthReset, hseen]
  since := by simp [healthReset, hsince, sinceReset]
  run := keepsRun_reset p
  window := keepsWindow_reset p
  below := below_nil
  judged := fun before s after heq => by simp at heq
  quiet := fun ⟨before, r, mid, s, after, heq, _⟩ => by simp at heq

theorem startupTest_live {src : Nat → Word} {n : Nat} (h : (startupTest src ⟨fresh, n⟩).1 = 0) :
    Live [] (startupTest src ⟨fresh, n⟩).2.priv ∧
      (startupTest src ⟨fresh, n⟩).2.taken = n + STARTUP_SAMPLES := by
  obtain ⟨⟨hfailed, hseen, hsince⟩, htaken⟩ :=
    startupFeed_spec src STARTUP_SAMPLES ⟨healthReset fresh, n⟩
  cases hpass : (startupFeed src STARTUP_SAMPLES ⟨healthReset fresh, n⟩).1 with
  | true =>
    have htest : (startupTest src ⟨fresh, n⟩).2 =
        let r := startupFeed src STARTUP_SAMPLES ⟨healthReset fresh, n⟩
        { r.2 with priv := healthReset r.2.priv } := by
      simp only [startupTest]
      rw [if_pos hpass]
    rw [htest]
    exact ⟨live_reset hfailed hseen hsince, htaken hpass⟩
  | false =>
    have htest : (startupTest src ⟨fresh, n⟩).1 = - EIO := by
      simp only [startupTest]
      rw [if_neg (by simp [hpass])]
    rw [htest] at h
    exact absurd h (by decide)

example : (startupTest (fun _ => 7) ⟨fresh, 0⟩).1 = - EIO := by decide +kernel

/-- Any run of calls behind a passed startup test: samples are taken in order and judged by those
since the last rejection, only what passed is handed out, and the second failure in a window is
the last word of the driver. -/
theorem health_run (src : Nat → Word) (n : Nat) (hstart : (startupTest src ⟨fresh, n⟩).1 = 0)
    (sizes : List Word) :
    let r := reads src sizes (startupTest src ⟨fresh, n⟩).2
    let h := r.1.flatMap Read.samples
    ReadsOn src (n + STARTUP_SAMPLES) h ∧
      (∀ before s after, h = before ++ s :: after →
        (s.passed = false ↔ Rejects (sinceReset before ++ [s.value]))) ∧
      (∀ q ∈ r.1, q.out = (q.samples.filter Sample.passed).map Sample.value ∧
        ∀ s ∈ q.samples, s.passed = false → q.ret = - EIO) ∧
      (r.2.priv.failed = true ↔ Latched h) ∧
      (r.2.priv.failed = true → ∀ max, read src r.2 max = (⟨- EIO, [], []⟩, r.2)) ∧
      (r.2.priv.failed = false → ∀ max, let q := (read src r.2 max).1
        (∀ s ∈ q.samples, s.passed = true) →
          q.ret = (max / 4 * 4).toInt ∧ q.samples.length = (max / 4).toNat) := by
  obtain ⟨hlive, htaken⟩ := startupTest_live hstart
  obtain ⟨hafter, hanswered, hreads⟩ := reads_spec src sizes (Or.inl hlive)
  rw [htaken] at hreads
  refine ⟨hreads, ?_, fun q hq => ⟨(hanswered q hq).out, (hanswered q hq).ret⟩, ?_, ?_, ?_⟩
  · obtain hl | hd := hafter
    · exact hl.judged
    · exact hd.judged
  · obtain hl | hd := hafter
    · exact iff_of_false (by simp [hl.failed]) hl.quiet
    · exact iff_of_true hd.failed hd.latched
  · intro hfailed max
    simp [read, hfailed]
  · intro hfailed max q hall
    have hread : q = (readWords src (max / 4) (max / 4).toNat
        (reads src sizes (startupTest src ⟨fresh, n⟩).2).2).1 := by
      simp [q, read, hfailed]
    rw [hread] at hall ⊢
    exact readWords_full src (max / 4) (max / 4).toNat _ hall

def stuck (i : Nat) : Word := if i < STARTUP_SAMPLES + 8 then BitVec.ofNat 32 i else 0

def stuckReads : List Read × Device := reads stuck [2048, 2048] (startupTest stuck ⟨fresh, 0⟩).2

theorem stuckReads_eq :
    reads stuck [2048, 2048] (startupTest stuck ⟨fresh, 0⟩).2 = stuckReads := rfl

theorem health_run_stuck :
    ReadsOn stuck (0 + STARTUP_SAMPLES) (stuckReads.1.flatMap Read.samples) ∧
      stuckReads.1.map Read.ret = [- EIO, - EIO] ∧ Latched (stuckReads.1.flatMap Read.samples) ∧
      ∀ max, read stuck stuckReads.2 max = (⟨- EIO, [], []⟩, stuckReads.2) := by
  have hfailed : stuckReads.2.priv.failed = true := by decide +kernel
  have hrets : stuckReads.1.map Read.ret = [- EIO, - EIO] := by decide +kernel
  have hrun := health_run stuck 0 (by decide +kernel) [2048, 2048]
  simp only [stuckReads_eq] at hrun
  obtain ⟨hreads, -, -, hlatched, hdead, -⟩ := hrun
  exact ⟨hreads, hrets, hlatched.mp hfailed, hdead hfailed⟩

end AipcOs.L2Rng
