import AipcOs.ByteFrames
import AipcOs.RspConsole
import AipcOs.Terminated

/-! gdbstub/trace.c in memory: the windows at TRACE_BASE and TRACE_PREV, the cursor as an address,
and the restart that moves one window to the other a word at a time. The printing functions call
nothing but trace_putc, here a parameter. -/
namespace AipcOs.TraceRestart
open ByteMemory ByteFrames HexText Terminated Pieces RspWire Rsp
open TraceLog (TRACE_SIZE Trace upperDigit pow10 decDigits)

def TRACE_BASE : Word := 0x301C0000
def TRACE_PREV : Word := 0x301D0000

structure Log where
  mem : Mem
  g_put : Word
  g_end : Word

def initWord (m : Mem) (i : Nat) : Mem :=
  let live := TRACE_BASE + BitVec.ofNat 32 (4 * i)
  let prev := TRACE_PREV + BitVec.ofNat 32 (4 * i)
  let m := storeWord m prev (wordAt m live)
  storeWord m live 0

def traceInit (m : Mem) : Log where
  mem := (List.range (TRACE_SIZE / 4)).foldl initWord m
  g_put := TRACE_BASE
  g_end := TRACE_BASE + BitVec.ofNat 32 TRACE_SIZE - 1

def tracePutc (c : Byte) (l : Log) : Log :=
  if l.g_put < l.g_end then { l with mem := store l.mem l.g_put c, g_put := l.g_put + 1 } else l

section printing
variable {σ : Type} (putc : Byte → σ → σ)

def tracePuts : List Byte → σ → σ
  | [], s => s
  | c :: cs, s => if c = 0 then s else tracePuts cs (putc c s)

def traceHex (value : Word) : (digits : Nat) → σ → σ
  | 0, s => s
  | i + 1, s => traceHex value i (putc (upperDigit ((value >>> (i * 4)) &&& 0xF).toNat) s)

/-- The subtractions of one digit: how many, and what they leave. Each takes at least 1 off the
value, which bounds the turns. -/
def countPower (p : Nat) : (turns value n : Nat) → Nat × Nat
  | 0, value, n => (n, value)
  | turns + 1, value, n =>
    if value ≥ p then countPower p turns (value - p) (n + 1) else (n, value)

def decLoop : (powers : List Nat) → (value : Nat) → (started : Bool) → σ → σ
  | [], _, _, s => s
  | p :: ps, value, started, s =>
    let (n, value) := countPower p value value 0
    if n ≠ 0 ∨ started ∨ ps = [] then decLoop ps value true (putc (BitVec.ofNat 8 (0x30 + n)) s)
    else decLoop ps value started s

def traceDec (value : Word) (s : σ) : σ := decLoop putc pow10 value.toNat false s

def traceReg (name : List Byte) (value : Word) (s : σ) : σ :=
  putc 0x0A (traceHex putc value 8 (tracePuts putc (ascii "=0x") (tracePuts putc name s)))

inductive Call where
  | puts (text : List Byte)
  | hex (value digits : Word)
  | dec (value : Word)
  | reg (name : List Byte) (value : Word)

def Call.run : Call → σ → σ
  | .puts text => tracePuts putc text
  | .hex value digits => traceHex putc value digits.toNat
  | .dec value => traceDec putc value
  | .reg name value => traceReg putc name value

def runs (calls : List Call) (s : σ) : σ := calls.foldl (fun s call => call.run putc s) s

end printing

def written (calls : List Call) : List Byte := runs (fun c text => text ++ [c]) calls []

def traceUsed (l : Log) : Word := l.g_put - TRACE_BASE

def prevUsedFrom (m : Mem) : (left i : Nat) → Nat
  | 0, _ => TRACE_SIZE
  | left + 1, i =>
    let w := wordAt m (TRACE_PREV + BitVec.ofNat 32 (4 * i))
    if w &&& 0x000000FF = 0 then 4 * i
    else if w &&& 0x0000FF00 = 0 then 4 * i + 1
    else if w &&& 0x00FF0000 = 0 then 4 * i + 2
    else if w &&& 0xFF000000 = 0 then 4 * i + 3
    else prevUsedFrom m left (i + 1)

def tracePrevUsed (m : Mem) : Nat := prevUsedFrom m (TRACE_SIZE / 4) 0

def Call.chars : Call → List Byte
  | .puts text => text.takeWhile (· ≠ 0)
  | .hex value digits => hexChars value digits.toNat
  | .dec value => decDigits value.toNat false pow10
  | .reg name value => name.takeWhile (· ≠ 0) ++ ascii "=0x" ++ hexChars value 8 ++ [0x0A]
where
  /-- The digits of a value, most significant first. -/
  hexChars (value : Word) (digits : Nat) : List Byte :=
    (List.range digits).reverse.map fun i => upperDigit ((value >>> (i * 4)) &&& 0xF).toNat

section text
variable {σ : Type} (putc : Byte → σ → σ)

theorem tracePuts_eq (text : List Byte) (s : σ) :
    tracePuts putc text s = (text.takeWhile (· ≠ 0)).foldl (fun s c => putc c s) s := by
  induction text generalizing s with
  | nil => rfl
  | cons c cs ih =>
    rw [tracePuts]
    split
    · rename_i hc
      simp [hc]
    · rename_i hc
      rw [ih, List.takeWhile_cons_of_pos (by simpa using hc), List.foldl_cons]

theorem traceHex_eq (value : Word) (digits : Nat) (s : σ) :
    traceHex putc value digits s =
      (Call.chars.hexChars value digits).foldl (fun s c => putc c s) s := by
  induction digits generalizing s with
  | zero => rfl
  | succ i ih =>
    rw [traceHex, ih]
    simp [Call.chars.hexChars, List.range_succ]

/-- Repeated subtraction divides. -/
theorem countPower_eq {p turns value : Nat} (hp : 0 < p) (hturns : value ≤ turns) (n : Nat) :
    countPower p turns value n = (n + value / p, value % p) := by
  induction turns generalizing value n with
  | zero =>
    obtain rfl := Nat.le_zero.mp hturns
    simp [countPower]
  | succ turns ih =>
    rw [countPower]
    split
    · rename_i hge
      rw [ih (by omega), Nat.div_eq_sub_div hp hge, Nat.mod_eq_sub_mod hge, Nat.add_right_comm,
        Nat.add_assoc n]
    · rename_i hlt
      rw [Nat.div_eq_of_lt (not_le.mp hlt), Nat.mod_eq_of_lt (not_le.mp hlt), Nat.add_zero]

theorem decLoop_eq {powers : List Nat} (hpos : ∀ p ∈ powers, 0 < p) (value : Nat) (started : Bool)
    (s : σ) : decLoop putc powers value started s =
      (decDigits value started powers).foldl (fun s c => putc c s) s := by
  induction powers generalizing value started s with
  | nil => rfl
  | cons p ps ih =>
    have hrest := ih fun q hq => hpos q (List.mem_cons_of_mem p hq)
    rw [decLoop, countPower_eq (hpos p List.mem_cons_self) le_rfl, Nat.zero_add, decDigits]
    dsimp only
    split
    · rw [List.foldl_cons, hrest]
    · exact hrest _ _ _

theorem traceDec_eq (value : Word) (s : σ) :
    traceDec putc value s =
      (decDigits value.toNat false pow10).foldl (fun s c => putc c s) s :=
  decLoop_eq putc (by decide) value.toNat false s

/-- A call hands its characters to `putc`, and nothing else. -/
theorem Call.run_eq (call : Call) (s : σ) :
    call.run putc s = call.chars.foldl (fun s c => putc c s) s := by
  cases call with
  | puts text => exact tracePuts_eq putc text s
  | hex value digits => exact traceHex_eq putc value digits.toNat s
  | dec value => exact traceDec_eq putc value s
  | reg name value =>
    have heq : (ascii "=0x").takeWhile (· ≠ 0) = ascii "=0x" := by decide
    simp only [Call.run, traceReg, Call.chars, tracePuts_eq, traceHex_eq, heq, List.foldl_append,
      List.foldl_cons, List.foldl_nil]

theorem runs_flatMap (calls : List Call) (s : σ) :
    runs putc calls s = (calls.flatMap Call.chars).foldl (fun s c => putc c s) s := by
  induction calls generalizing s with
  | nil => rfl
  | cons call calls ih =>
    rw [List.flatMap_cons, List.foldl_append, ← Call.run_eq, ← ih]
    rfl

theorem foldl_snoc (text chars : List Byte) :
    chars.foldl (fun text c => text ++ [c]) text = text ++ chars := by
  induction chars generalizing text with
  | nil => simp
  | cons c chars ih => simp [ih]

theorem written_eq (calls : List Call) : written calls = calls.flatMap Call.chars := by
  rw [written, runs_flatMap, foldl_snoc, List.nil_append]

example : written [.puts (ascii "pc"), .reg (ascii " sp") 0x301FFC0A, .dec 2050] =
    ascii "pc sp=0x301FFC0A\n2050" := by decide

theorem runs_eq (calls : List Call) (s : σ) :
    runs putc calls s = (written calls).foldl (fun s c => putc c s) s := by
  rw [written_eq, runs_flatMap]

end text

theorem upperDigit_ne_zero {v : Nat} (hv : v < 16) : upperDigit v ≠ 0 := by
  interval_cases v <;> decide

theorem hexChars_ne_zero {c : Byte} {value : Word} {digits : Nat}
    (hc : c ∈ Call.chars.hexChars value digits) : c ≠ 0 := by
  obtain ⟨i, -, rfl⟩ := List.mem_map.mp hc
  apply upperDigit_ne_zero
  rw [BitVec.toNat_and]
  exact Nat.lt_succ_of_le Nat.and_le_right

theorem decDigit_ne_zero {n : Nat} (hn : n < 10) : BitVec.ofNat 8 (0x30 + n) ≠ 0 := by
  interval_cases n <;> decide

/-- Each power is at most ten times the next, so no digit passes '9'. -/
theorem decDigits_ne_zero {c : Byte} {ps : List Nat} (hps : ps.IsChain (fun p q => p ≤ 10 * q))
    {v : Nat} (hv : ∀ p ∈ ps.head?, v < 10 * p) {started : Bool}
    (hc : c ∈ decDigits v started ps) : c ≠ 0 := by
  induction ps generalizing v started with
  | nil => cases hc
  | cons p ps ih =>
    have hp := hv p rfl
    have hdigit : v / p < 10 := Nat.div_lt_of_lt_mul (by omega)
    have hrest : ∀ q ∈ ps.head?, v % p < 10 * q := by
      intro q hq
      have hmod : v % p < p := Nat.mod_lt v (by omega)
      exact hmod.trans_le (hps.rel_head? hq)
    rw [decDigits] at hc
    split at hc
    · obtain rfl | hc := List.mem_cons.mp hc
      · exact decDigit_ne_zero hdigit
      · exact ih hps.tail hrest hc
    · exact ih hps.tail hrest hc

theorem mem_takeWhile_ne_zero {c : Byte} {text : List Byte} (hc : c ∈ text.takeWhile (· ≠ 0)) :
    c ≠ 0 := by
  simpa using List.mem_takeWhile_imp hc

theorem Call.chars_ne_zero (call : Call) : ∀ c ∈ call.chars, c ≠ 0 := by
  intro c hc
  cases call with
  | puts text => exact mem_takeWhile_ne_zero hc
  | hex value digits => exact hexChars_ne_zero hc
  | dec value =>
    have hchain : pow10.IsChain (fun p q => p ≤ 10 * q) := by decide
    refine decDigits_ne_zero hchain ?_ hc
    intro p hp
    obtain rfl : 1000000000 = p := Option.some.inj hp
    have hlt := value.isLt
    omega
  | reg name value =>
    simp only [Call.chars, List.mem_append] at hc
    obtain ((hc | hc) | hc) | hc := hc
    · exact mem_takeWhile_ne_zero hc
    · revert hc c
      decide
    · exact hexChars_ne_zero hc
    · rw [List.mem_singleton] at hc
      rw [hc]
      decide

theorem written_ne_zero (calls : List Call) : ∀ c ∈ written calls, c ≠ 0 := by
  intro c hc
  rw [written_eq] at hc
  obtain ⟨call, -, hc⟩ := List.mem_flatMap.mp hc
  exact call.chars_ne_zero c hc

def window (m : Mem) (base : Word) (k : Nat) : Byte := m (base + BitVec.ofNat 32 k)

section restart
variable (m : Mem)

/-- What trace_init has done after `n` turns, by the offset of a byte from TRACE_BASE. -/
def moved (n : Nat) (x : Word) : Byte :=
  if (x - TRACE_BASE).toNat < 4 * n then 0
  else if TRACE_SIZE ≤ (x - TRACE_BASE).toNat ∧ (x - TRACE_BASE).toNat < TRACE_SIZE + 4 * n then
    m (x - BitVec.ofNat 32 TRACE_SIZE)
  else m x

theorem initWord_moved {n : Nat} (hn : n < TRACE_SIZE / 4) :
    initWord (moved m n) n = moved m (n + 1) := by
  have hsize : TRACE_SIZE = 0x10000 := rfl
  have hprev : TRACE_PREV = TRACE_BASE + BitVec.ofNat 32 TRACE_SIZE := rfl
  funext x
  have hlive : (x - (TRACE_BASE + BitVec.ofNat 32 (4 * n))).toNat < 4 ↔
      4 * n ≤ (x - TRACE_BASE).toNat ∧ (x - TRACE_BASE).toNat < 4 * n + 4 := by
    bv_omega
  have hcopy : (x - (TRACE_PREV + BitVec.ofNat 32 (4 * n))).toNat < 4 ↔
      TRACE_SIZE + 4 * n ≤ (x - TRACE_BASE).toNat ∧
        (x - TRACE_BASE).toNat < TRACE_SIZE + 4 * n + 4 := by
    bv_omega
  have hsource : TRACE_BASE + BitVec.ofNat 32 (4 * n) +
      (x - (TRACE_PREV + BitVec.ofNat 32 (4 * n))) = x - BitVec.ofNat 32 TRACE_SIZE := by
    bv_omega
  have hoff : TRACE_SIZE ≤ (x - TRACE_BASE).toNat →
      (x - BitVec.ofNat 32 TRACE_SIZE - TRACE_BASE).toNat = (x - TRACE_BASE).toNat - TRACE_SIZE := by
    bv_omega
  rw [initWord, storeWord_zero, storeWord_wordAt, hsource]
  simp only [hlive, hcopy, moved]
  generalize (x - TRACE_BASE).toNat = d at *
  by_cases hd : TRACE_SIZE ≤ d
  · rw [hoff hd]
    split_ifs <;> first | rfl | omega
  · have hcopied : ¬ (TRACE_SIZE + 4 * n ≤ d ∧ d < TRACE_SIZE + 4 * n + 4) := by omega
    rw [if_neg hcopied]
    split_ifs <;> first | rfl | omega

theorem init_moved {n : Nat} (hn : n ≤ TRACE_SIZE / 4) :
    (List.range n).foldl initWord m = moved m n := by
  induction n with
  | zero =>
    funext x
    rw [moved, if_neg (Nat.not_lt_zero _), if_neg (by omega)]
    rfl
  | succ n ih =>
    rw [List.range_succ, List.foldl_append, ih (Nat.le_of_succ_le hn), List.foldl_cons,
      List.foldl_nil, initWord_moved m hn]

theorem traceInit_mem : (traceInit m).mem = moved m (TRACE_SIZE / 4) := by
  rw [traceInit, init_moved m (Nat.le_refl (TRACE_SIZE / 4))]

theorem traceInit_live {k : Nat} (hk : k < TRACE_SIZE) :
    window (traceInit m).mem TRACE_BASE k = 0 := by
  have hsize : TRACE_SIZE = 0x10000 := rfl
  rw [window, traceInit_mem, moved, add_ofNat_sub (by omega), if_pos (by omega)]

theorem traceInit_prev {k : Nat} (hk : k < TRACE_SIZE) :
    window (traceInit m).mem TRACE_PREV k = window m TRACE_BASE k := by
  have hsize : TRACE_SIZE = 0x10000 := rfl
  have hprev : TRACE_PREV = TRACE_BASE + BitVec.ofNat 32 TRACE_SIZE := rfl
  have hoff : TRACE_BASE + BitVec.ofNat 32 (TRACE_SIZE + k) - BitVec.ofNat 32 TRACE_SIZE =
      TRACE_BASE + BitVec.ofNat 32 k := by
    bv_omega
  rw [window, traceInit_mem, hprev, add_ofNat_add, moved,
    add_ofNat_sub (by omega), if_neg (by omega), if_pos (by omega), hoff]
  rfl

/-- trace_init writes the two windows, which are neighbours. -/
theorem traceInit_frame : Frame TRACE_BASE (2 * TRACE_SIZE) m (traceInit m).mem := by
  have hsize : TRACE_SIZE = 0x10000 := rfl
  intro x hx
  rw [traceInit_mem, moved, if_neg (by omega), if_neg (by omega)]

end restart

/-- The log of a run: its text so far, and the cursor on the terminator. -/
structure Writing (l : Log) (text : List Byte) : Prop where
  holds : Holds TRACE_SIZE (window l.mem TRACE_BASE) text
  put : l.g_put = TRACE_BASE + BitVec.ofNat 32 text.length
  stop : l.g_end = TRACE_BASE + BitVec.ofNat 32 TRACE_SIZE - 1

theorem traceInit_writing (m : Mem) : Writing (traceInit m) [] :=
  ⟨Holds.nil (by decide) fun _ hk => traceInit_live m hk, (BitVec.add_zero _).symm, rfl⟩

theorem put_lt_end_iff {n : Nat} (hn : n < TRACE_SIZE) :
    TRACE_BASE + BitVec.ofNat 32 n < TRACE_BASE + BitVec.ofNat 32 TRACE_SIZE - 1 ↔
      n < TRACE_SIZE - 1 := by
  have hsize : TRACE_SIZE = 0x10000 := rfl
  have hbase : TRACE_BASE = 0x301C0000 := rfl
  have hput : (TRACE_BASE + BitVec.ofNat 32 n).toNat = 0x301C0000 + n := by
    bv_omega
  have hstop : (TRACE_BASE + BitVec.ofNat 32 TRACE_SIZE - 1).toNat = 0x301C0000 + 0xFFFF := rfl
  rw [BitVec.lt_def, hput, hstop]
  omega

/-- A character that finds room goes over the terminator; the last cell stays a terminator. -/
theorem tracePutc_writing {l : Log} {text : List Byte} (h : Writing l text) (c : Byte) :
    Writing (tracePutc c l) ((text ++ [c]).take (TRACE_SIZE - 1)) := by
  have hsize : TRACE_SIZE = 0x10000 := rfl
  have hfits := h.holds.fits
  have hroom : l.g_put < l.g_end ↔ text.length < TRACE_SIZE - 1 := by
    rw [h.put, h.stop]
    exact put_lt_end_iff hfits
  rw [tracePutc]
  split
  · rename_i hlt
    have hfree := hroom.mp hlt
    have hshort : (text ++ [c]).length ≤ TRACE_SIZE - 1 := by
      rw [List.length_append, List.length_singleton]
      omega
    rw [List.take_of_length_le hshort]
    refine ⟨?_, ?_, h.stop⟩
    · refine (h.holds.snoc c (by omega)).congr ?_
      intro k hk
      have hcell : TRACE_BASE + BitVec.ofNat 32 k = l.g_put ↔ k = text.length := by
        rw [h.put]
        bv_omega
      simp only [window, store, Function.update_apply, hcell]
    · have hnext : l.g_put + 1 = TRACE_BASE + BitVec.ofNat 32 (text.length + 1) := by
        rw [h.put]
        exact add_ofNat_add
      rwa [List.length_append, List.length_singleton]
  · rename_i hfull
    have hlen : text.length = TRACE_SIZE - 1 := by
      rw [hroom] at hfull
      omega
    rw [← hlen, List.take_left]
    exact h

theorem tracePutc_frame {l : Log} {text : List Byte} (h : Writing l text) (c : Byte) :
    Frame TRACE_BASE TRACE_SIZE l.mem (tracePutc c l).mem := by
  have hsize : TRACE_SIZE = 0x10000 := rfl
  have hfits := h.holds.fits
  intro x hx
  rw [tracePutc]
  split
  · have hne : x ≠ l.g_put := by
      intro heq
      rw [heq, h.put, add_ofNat_sub (by omega)] at hx
      omega
    exact Function.update_of_ne hne _ _
  · rfl

/-- A run appends its text as far as it fits, and changes nothing else. -/
theorem runs_writing (calls : List Call) {l : Log} (h : Writing l []) :
    Writing (runs tracePutc calls l) ((written calls).take (TRACE_SIZE - 1)) ∧
      Frame TRACE_BASE TRACE_SIZE l.mem (runs tracePutc calls l).mem := by
  rw [runs_eq]
  have hstart : Writing l ([].take (TRACE_SIZE - 1)) ∧ Frame TRACE_BASE TRACE_SIZE l.mem l.mem :=
    ⟨h, Frame.refl⟩
  have hrel := List.foldl_rel (l := written calls) (f := fun s c => tracePutc c s)
    (g := fun text c => text ++ [c]) (r := fun s text => Writing s (text.take (TRACE_SIZE - 1)) ∧
      Frame TRACE_BASE TRACE_SIZE l.mem s.mem) hstart (by
    intro c _ s text hs
    obtain ⟨hs, hframe⟩ := hs
    rw [take_snoc]
    exact ⟨tracePutc_writing hs c, hframe.trans (tracePutc_frame hs c)⟩)
  rwa [foldl_snoc, List.nil_append] at hrel

/-- One turn of trace_prev_used, by bytes. -/
theorem prevUsedFrom_succ (m : Mem) (left i : Nat) :
    prevUsedFrom m (left + 1) i =
      if window m TRACE_PREV (4 * i) = 0 then 4 * i
      else if window m TRACE_PREV (4 * i + 1) = 0 then 4 * i + 1
      else if window m TRACE_PREV (4 * i + 2) = 0 then 4 * i + 2
      else if window m TRACE_PREV (4 * i + 3) = 0 then 4 * i + 3
      else prevUsedFrom m left (i + 1) := by
  have hbyte (k : Nat) (hk : k < 4) :
      wordAt m (TRACE_PREV + BitVec.ofNat 32 (4 * i)) &&& (0xFF#32 <<< (8 * k)) = 0 ↔
        window m TRACE_PREV (4 * i + k) = 0 := by
    rw [wordAt_and_mask _ _ hk, add_ofNat_add, window]
  generalize hw : wordAt m (TRACE_PREV + BitVec.ofNat 32 (4 * i)) = w at hbyte
  have h0 : w &&& 0x000000FF = 0 ↔ window m TRACE_PREV (4 * i) = 0 := hbyte 0 (by decide)
  have h1 : w &&& 0x0000FF00 = 0 ↔ window m TRACE_PREV (4 * i + 1) = 0 := hbyte 1 (by decide)
  have h2 : w &&& 0x00FF0000 = 0 ↔ window m TRACE_PREV (4 * i + 2) = 0 := hbyte 2 (by decide)
  have h3 : w &&& 0xFF000000 = 0 ↔ window m TRACE_PREV (4 * i + 3) = 0 := hbyte 3 (by decide)
  simp only [prevUsedFrom, hw, h0, h1, h2, h3]

/-- The search ends at the terminator, whatever part of a word it is in. -/
theorem prevUsedFrom_eq {m : Mem} {text : List Byte}
    (h : Holds TRACE_SIZE (window m TRACE_PREV) text) (hne : ∀ c ∈ text, c ≠ 0) {left i : Nat}
    (hleft : left + i = TRACE_SIZE / 4) (hi : 4 * i ≤ text.length) :
    prevUsedFrom m left i = text.length := by
  have hsize : TRACE_SIZE = 0x10000 := rfl
  have hfits := h.fits
  induction left generalizing i with
  | zero => omega
  | succ left ih =>
    have h0 := h.eq_zero_iff hne (by omega : 4 * i < TRACE_SIZE)
    have h1 := h.eq_zero_iff hne (by omega : 4 * i + 1 < TRACE_SIZE)
    have h2 := h.eq_zero_iff hne (by omega : 4 * i + 2 < TRACE_SIZE)
    have h3 := h.eq_zero_iff hne (by omega : 4 * i + 3 < TRACE_SIZE)
    simp only [prevUsedFrom_succ, h0, h1, h2, h3]
    split_ifs
    · omega
    · omega
    · omega
    · omega
    · exact ih (by omega) (by omega)

theorem tracePrevUsed_eq {m : Mem} {text : List Byte}
    (h : Holds TRACE_SIZE (window m TRACE_PREV) text) (hne : ∀ c ∈ text, c ≠ 0) :
    tracePrevUsed m = text.length :=
  prevUsedFrom_eq h hne (Nat.add_zero _) (Nat.zero_le _)

theorem readBytes_window (m : Mem) (base : Word) (n : Nat) :
    readBytes m base n = (List.range n).map (window m base) := by
  apply List.ext_getElem?
  intro i
  by_cases hi : i < n
  · rw [readBytes_getElem? _ _ _ _ hi, List.getElem?_map, List.getElem?_range hi]
    rfl
  · have hlen := readBytes_length m base n
    rw [List.getElem?_eq_none (by omega), List.getElem?_eq_none (by simpa using hi)]

def firstRun (m : Mem) (calls : List Call) : Log := runs tracePutc calls (traceInit m)

def restarted (m : Mem) (calls : List Call) : Log := traceInit (firstRun m calls).mem

def kept (calls : List Call) : List Byte := (written calls).take (TRACE_SIZE - 1)

theorem kept_ne_zero (calls : List Call) : ∀ c ∈ kept calls, c ≠ 0 := fun c hc =>
  written_ne_zero calls c (List.mem_of_mem_take hc)

theorem restarted_holds (m : Mem) (calls : List Call) :
    Holds TRACE_SIZE (window (restarted m calls).mem TRACE_PREV) (kept calls) :=
  (runs_writing calls (traceInit_writing m)).1.holds.congr fun _ hk => traceInit_prev _ hk

theorem readBytes_prevUsed {m : Mem} {text : List Byte}
    (h : Holds TRACE_SIZE (window m TRACE_PREV) text) (hne : ∀ c ∈ text, c ≠ 0) :
    readBytes m TRACE_PREV (tracePrevUsed m) = text := by
  rw [tracePrevUsed_eq h hne, readBytes_window, h.map_range]

structure Shows (l : Log) (t : Trace) : Prop where
  live : ∀ k < TRACE_SIZE, t.live k = window l.mem TRACE_BASE k
  prev : ∀ k < TRACE_SIZE, t.prev k = window l.mem TRACE_PREV k
  inside : t.put < TRACE_SIZE
  put : l.g_put = TRACE_BASE + BitVec.ofNat 32 t.put
  stop : l.g_end = TRACE_BASE + BitVec.ofNat 32 TRACE_SIZE - 1

def started (m : Mem) : Trace := ⟨fun _ => 0, window m TRACE_BASE, 0⟩

theorem traceInit_shows (m : Mem) : Shows (traceInit m) (started m) where
  live _ hk := (traceInit_live m hk).symm
  prev _ hk := (traceInit_prev m hk).symm
  inside := Nat.zero_lt_succ _
  put := (BitVec.add_zero _).symm
  stop := rfl

theorem tracePutc_shows {l : Log} {t : Trace} (h : Shows l t) (c : Byte) :
    Shows (tracePutc c l) (TraceLog.tracePutc c t) := by
  have hsize : TRACE_SIZE = 0x10000 := rfl
  have hprev : TRACE_PREV = TRACE_BASE + BitVec.ofNat 32 TRACE_SIZE := rfl
  have hinside := h.inside
  have hroom : l.g_put < l.g_end ↔ t.put < TRACE_SIZE - 1 := by
    rw [h.put, h.stop]
    exact put_lt_end_iff hinside
  simp only [tracePutc, TraceLog.tracePutc, hroom]
  split
  · refine ⟨?_, ?_, ?_, ?_, h.stop⟩
    · intro k hk
      have hcell : TRACE_BASE + BitVec.ofNat 32 k = l.g_put ↔ k = t.put := by
        rw [h.put]
        bv_omega
      have hlive := h.live k hk
      simp only [window] at hlive
      simp only [window, store, Function.update_apply, hcell, hlive]
    · intro k hk
      have hcell : TRACE_PREV + BitVec.ofNat 32 k ≠ l.g_put := by
        rw [h.put]
        bv_omega
      simp only [window, store, Function.update_apply, hcell, if_false]
      exact h.prev k hk
    · dsimp only
      omega
    · have hnext : l.g_put + 1 = TRACE_BASE + BitVec.ofNat 32 (t.put + 1) := by
        rw [h.put]
        exact add_ofNat_add
      exact hnext
  · exact h

theorem runs_shows (calls : List Call) {l : Log} {t : Trace} (h : Shows l t) :
    Shows (runs tracePutc calls l) (runs TraceLog.tracePutc calls t) := by
  rw [runs_eq, runs_eq]
  exact List.foldl_rel (r := Shows) h fun c _ _ _ hs => tracePutc_shows hs c

theorem puts_offsets (text : List Byte) (t : Trace) :
    tracePuts TraceLog.tracePutc text t = TraceLog.tracePuts text t := by
  induction text generalizing t with
  | nil => rfl
  | cons c cs ih =>
    rw [tracePuts, TraceLog.tracePuts, ih]

theorem hex_offsets (value : Word) (digits : Nat) (t : Trace) :
    traceHex TraceLog.tracePutc value digits t = TraceLog.traceHex value digits t := by
  induction digits generalizing t with
  | zero => rfl
  | succ i ih => rw [traceHex, TraceLog.traceHex, ih]

/-- The printing functions of the stub are the calls of a run. -/
theorem run_offsets (call : Call) (t : Trace) :
    call.run TraceLog.tracePutc t =
      match call with
      | .puts text => TraceLog.tracePuts text t
      | .hex value digits => TraceLog.traceHex value digits.toNat t
      | .dec value => TraceLog.traceDec value t
      | .reg name value =>
        TraceLog.tracePutc 0x0A (TraceLog.traceHex value 8
          (TraceLog.tracePuts (ascii "=0x") (TraceLog.tracePuts name t))) := by
  cases call with
  | puts text => exact puts_offsets text t
  | hex value digits => exact hex_offsets value digits.toNat t
  | dec value => exact traceDec_eq _ value t
  | reg name value => rw [Call.run, traceReg, hex_offsets, puts_offsets, puts_offsets]

theorem prevUsedFrom_shows {l : Log} {t : Trace} (h : Shows l t) {left i : Nat}
    (hleft : left + i = TRACE_SIZE / 4) :
    TraceLog.prevUsedFrom t left i = prevUsedFrom l.mem left i := by
  have hsize : TRACE_SIZE = 0x10000 := rfl
  induction left generalizing i with
  | zero => rfl
  | succ left ih =>
    have h0 := h.prev (4 * i) (by omega)
    have h1 := h.prev (4 * i + 1) (by omega)
    have h2 := h.prev (4 * i + 2) (by omega)
    have h3 := h.prev (4 * i + 3) (by omega)
    rw [TraceLog.prevUsedFrom, h0, h1, h2, h3, prevUsedFrom_succ, ih (by omega)]

theorem tracePrevUsed_shows {l : Log} {t : Trace} (h : Shows l t) :
    TraceLog.tracePrevUsed t = tracePrevUsed l.mem :=
  prevUsedFrom_shows h (Nat.add_zero _)

theorem region_shows {l : Log} {t : Trace} (h : Shows l t) {n : Nat} (hn : n ≤ TRACE_SIZE) :
    TraceLog.region t.prev n = readBytes l.mem TRACE_PREV n := by
  rw [TraceLog.region, readBytes_window]
  apply List.map_congr_left
  intro k hk
  exact h.prev k ((List.mem_range.mp hk).trans_le hn)

/-- A run leaves the log of the run before where it is. -/
theorem runs_holds {l : Log} (h : Writing l []) {text : List Byte}
    (hprev : Holds TRACE_SIZE (window l.mem TRACE_PREV) text) (calls : List Call) :
    Holds TRACE_SIZE (window (runs tracePutc calls l).mem TRACE_PREV) text := by
  have hsize : TRACE_SIZE = 0x10000 := rfl
  have hbehind : TRACE_PREV = TRACE_BASE + BitVec.ofNat 32 TRACE_SIZE := rfl
  refine hprev.congr ?_
  intro k hk
  apply (runs_writing calls h).2
  rw [hbehind, add_ofNat_add, add_ofNat_sub (by omega)]
  exact Nat.le_add_right _ _

/-- The whole text of the run before goes out on request, at any time of the next run. -/
theorem oldtrace_sent (m : Mem) (calls later : List Call) (o : Out) :
    (handleMonitor m (runs TraceLog.tracePutc later (started (firstRun m calls).mem))
      (encode (ascii "oldtrace")) o).sent =
      o.sent ++ transfers true (consoleBodies (pieces MONITOR_CHUNK (kept calls))) := by
  have hshows := runs_shows later (traceInit_shows (firstRun m calls).mem)
  have hholds := runs_holds (traceInit_writing _) (restarted_holds m calls) later
  have hcmd : ∀ t, handleMonitor m t (encode (ascii "oldtrace")) o =
      sendRegion (TraceLog.region t.prev (TraceLog.tracePrevUsed t)) o := fun _ => rfl
  have hused := tracePrevUsed_eq hholds (kept_ne_zero calls)
  rw [hcmd, tracePrevUsed_shows hshows, region_shows hshows, readBytes_prevUsed hholds
    (kept_ne_zero calls), sendRegion_sent]
  rw [hused]
  exact hholds.fits.le

/-- A restart keeps the text of the run before as far as it fits a window, with the live log empty
again. The calls write the live window alone, trace_init the two windows. The console packets of
the kept range spell its bytes, and one OK ends the reply. -/
theorem restart_exact (m : Mem) (calls : List Call) :
    readBytes (restarted m calls).mem TRACE_PREV (tracePrevUsed (restarted m calls).mem) =
      (written calls).take (TRACE_SIZE - 1) ∧
    traceUsed (restarted m calls) = 0 ∧
    (∀ k < TRACE_SIZE, window (restarted m calls).mem TRACE_BASE k = 0) ∧
    Frame TRACE_BASE TRACE_SIZE (traceInit m).mem (firstRun m calls).mem ∧
    Frame TRACE_BASE (2 * TRACE_SIZE) (firstRun m calls).mem (restarted m calls).mem ∧
    ∀ o : Out, ∃ bodies : List (List Byte),
      (sendRegion (readBytes (restarted m calls).mem TRACE_PREV
        (tracePrevUsed (restarted m calls).mem)) o).sent =
          o.sent ++ transfers true (bodies ++ [ascii "OK"]) ∧
      (bodies.mapM payload?).map List.flatten = some ((written calls).take (TRACE_SIZE - 1)) := by
  have hread := readBytes_prevUsed (restarted_holds m calls) (kept_ne_zero calls)
  refine ⟨hread, BitVec.sub_self _, fun _ hk => traceInit_live _ hk,
    (runs_writing calls (traceInit_writing m)).2, traceInit_frame _, ?_⟩
  intro o
  refine ⟨(pieces MONITOR_CHUNK (kept calls)).map consoleBody, ?_, ?_⟩
  · rw [hread]
    exact sendRegion_sent (kept calls) o
  · rw [mapM_payload?, Option.map_some, flatten_pieces (by decide)]
    rfl

end AipcOs.TraceRestart
