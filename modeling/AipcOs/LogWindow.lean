import AipcOs.TraceRestart

/-! lib/log.c: the window at LOG_BASE over a boot, whose stages start the log, go on with it or give
it up. The UART half is left out. -/
namespace AipcOs.LogWindow
open ByteMemory ByteFrames HexText RspWire TraceRestart
open TraceLog (pow10 decDigits)

def LOG_SIZE : Nat := 0x10000

structure Log where
  mem : Mem
  log_ptr : Word
  log_end : Word

variable (LOG_BASE : Word)

def logEnd : Word := LOG_BASE + BitVec.ofNat 32 LOG_SIZE

/-- The loop of log_init, over `n` bytes. -/
def clear (n : Nat) (m : Mem) : Mem :=
  (List.range n).foldl (fun m i => store m (LOG_BASE + BitVec.ofNat 32 i) 0) m

def logInit (m : Mem) : Log where
  mem := clear LOG_BASE LOG_SIZE m
  log_ptr := LOG_BASE
  log_end := logEnd LOG_BASE

/-- The loop of log_resume, with `left` bytes before log_end. -/
def skip (m : Mem) : (left : Nat) → (log_ptr : Word) → Word
  | 0, p => p
  | left + 1, p => if m p = 0 then p else skip m left (p + 1)

def logResume (m : Mem) : Log :=
  let log_ptr := skip m LOG_SIZE LOG_BASE
  if log_ptr = logEnd LOG_BASE then logInit LOG_BASE m else ⟨m, log_ptr, logEnd LOG_BASE⟩

def logDetach (l : Log) : Log := { l with log_ptr := l.log_end }

def logPutc (c : Byte) (l : Log) : Log :=
  if l.log_ptr < l.log_end then
    { l with mem := store l.mem l.log_ptr c, log_ptr := l.log_ptr + 1 }
  else l

def logPuts (s : List Byte) (l : Log) : Log := tracePuts logPutc s l

def logHex32 (v : Word) (l : Log) : Log := traceHex logPutc v 8 (logPutc 0x78 (logPutc 0x30 l))

def logDec (v : Word) (l : Log) : Log := traceDec logPutc v l

def logRc (rc : Word) (l : Log) : Log := logPutc 0x0A (logDec (-rc) (logPuts (ascii " rc=") l))

inductive Op where
  | init
  | resume
  | detach
  | puts (s : List Byte)
  | hex32 (v : Word)
  | dec (v : Word)
  | rc (code : Word)

def Op.run : Op → Log → Log
  | .init, l => logInit LOG_BASE l.mem
  | .resume, l => logResume LOG_BASE l.mem
  | .detach, l => logDetach l
  | .puts s, l => logPuts s l
  | .hex32 v, l => logHex32 v l
  | .dec v, l => logDec v l
  | .rc code, l => logRc code l

def runs (ops : List Op) (m : Mem) : Log :=
  ops.foldl (fun l op => op.run LOG_BASE l) (logInit LOG_BASE m)

def Op.chars : Op → List Byte
  | .puts s => s.takeWhile (· ≠ 0)
  | .hex32 v => ascii "0x" ++ Call.chars.hexChars v 8
  | .dec v => decDigits v.toNat false pow10
  | .rc code => ascii " rc=" ++ decDigits (-code).toNat false pow10 ++ [0x0A]
  | .init | .resume | .detach => []

def Op.prints : Op → Bool
  | .init | .resume | .detach => false
  | _ => true

/-- A log as its readers see it: the text, and whether what is printed still reaches it. -/
structure Text where
  text : List Byte
  attached : Bool

def Text.print (t : Text) (cs : List Byte) : Text :=
  if t.attached then { t with text := (t.text ++ cs).take LOG_SIZE } else t

def Text.step (t : Text) : Op → Text
  | .init => ⟨[], true⟩
  | .resume => ⟨if t.text.length < LOG_SIZE then t.text else [], true⟩
  | .detach => { t with attached := false }
  | op => t.print op.chars

def texts (ops : List Op) : Text := ops.foldl Text.step ⟨[], true⟩

variable {LOG_BASE}

/-- The window holds the text and zeros behind it, and nothing else has changed since `m`. -/
structure Shows (LOG_BASE : Word) (m : Mem) (t : Text) (l : Log) : Prop where
  fits : t.text.length ≤ LOG_SIZE
  ne_zero : ∀ c ∈ t.text, c ≠ 0
  cells : ∀ k < LOG_SIZE, l.mem (LOG_BASE + BitVec.ofNat 32 k) = t.text.getD k 0
  ptr : l.log_ptr =
    if t.attached then LOG_BASE + BitVec.ofNat 32 t.text.length else logEnd LOG_BASE
  log_end : l.log_end = logEnd LOG_BASE
  frame : Frame LOG_BASE LOG_SIZE m l.mem

variable {m m' : Mem} {t : Text} {l : Log} {k n : Nat} {cs : List Byte} {c : Byte}

theorem Text.print_nil (h : t.text.length ≤ LOG_SIZE) : t.print [] = t := by
  rw [Text.print, List.append_nil, List.take_of_length_le h]
  split <;> rfl

theorem take_append_take {α : Type} (n : Nat) (xs ys : List α) :
    (xs.take n ++ ys).take n = (xs ++ ys).take n := by
  rw [List.take_append, List.take_append, List.take_take, Nat.min_self, List.length_take]
  congr 2
  omega

/-- Printing one character after the other is printing them all. -/
theorem Text.print_cons (t : Text) (c : Byte) (cs : List Byte) :
    t.print (c :: cs) = (t.print [c]).print cs := by
  by_cases h : t.attached = true
  · have hfirst : t.print [c] = { t with text := (t.text ++ [c]).take LOG_SIZE } := if_pos h
    have hthen : (t.print [c]).print cs =
        { t with text := ((t.text ++ [c]).take LOG_SIZE ++ cs).take LOG_SIZE } := by
      rw [hfirst]
      exact if_pos h
    rw [hthen, take_append_take, List.append_assoc]
    exact if_pos h
  · have hkeep (cs : List Byte) : t.print cs = t := if_neg h
    rw [hkeep, hkeep, hkeep]

theorem place_eq_iff {x : Word} (hn : n < 2 ^ 32) :
    x = LOG_BASE + BitVec.ofNat 32 n ↔ (x - LOG_BASE).toNat = n :=
  add_ofNat_eq_iff LOG_BASE x n hn

theorem size_lt : LOG_SIZE < 2 ^ 32 := by decide

theorem clear_apply (m : Mem) (x : Word) (hn : n ≤ 2 ^ 32) :
    clear LOG_BASE n m x = if (x - LOG_BASE).toNat < n then 0 else m x := by
  induction n with
  | zero => rfl
  | succ n ih =>
    have hstep : clear LOG_BASE (n + 1) m =
        store (clear LOG_BASE n m) (LOG_BASE + BitVec.ofNat 32 n) 0 := by
      rw [clear, List.range_succ, List.foldl_append]
      rfl
    rw [hstep, store, Function.update_apply, ih (by omega)]
    have hplace : x = LOG_BASE + BitVec.ofNat 32 n ↔ (x - LOG_BASE).toNat = n :=
      place_eq_iff (by omega)
    by_cases hx : x = LOG_BASE + BitVec.ofNat 32 n
    · have heq := hplace.mp hx
      rw [if_pos hx, if_pos (by omega)]
    · have hne : ¬ (x - LOG_BASE).toNat = n := fun h => hx (hplace.mpr h)
      rw [if_neg hx]
      congr 1
      rw [eq_iff_iff]
      omega

theorem init_mem (m : Mem) (x : Word) :
    (logInit LOG_BASE m).mem x = if (x - LOG_BASE).toNat < LOG_SIZE then 0 else m x := by
  have hmem : (logInit LOG_BASE m).mem = clear LOG_BASE LOG_SIZE m := by rw [logInit]
  rw [hmem, clear_apply m x size_lt.le]

theorem shows_init (h : Frame LOG_BASE LOG_SIZE m m') :
    Shows LOG_BASE m ⟨[], true⟩ (logInit LOG_BASE m') where
  fits := Nat.zero_le _
  ne_zero := by
    intro c hc
    cases hc
  cells := by
    intro k hk
    have hsize := lt_trans hk size_lt
    rw [init_mem, add_ofNat_sub hsize, if_pos hk]
    rfl
  ptr := (BitVec.add_zero LOG_BASE).symm
  log_end := rfl
  frame := by
    intro x hx
    rw [init_mem, if_neg (by omega)]
    exact h x hx

theorem Shows.detach (h : Shows LOG_BASE m t l) :
    Shows LOG_BASE m { t with attached := false } (logDetach l) where
  fits := h.fits
  ne_zero := h.ne_zero
  cells := h.cells
  ptr := h.log_end
  log_end := h.log_end
  frame := h.frame

/-- A place of the window comes before its end. -/
theorem place_lt_end_iff (hbase : LOG_BASE.toNat + LOG_SIZE < 2 ^ 32) (hn : n ≤ LOG_SIZE) :
    LOG_BASE + BitVec.ofNat 32 n < logEnd LOG_BASE ↔ n < LOG_SIZE := by
  have hsize := size_lt
  rw [BitVec.lt_def, logEnd, BitVec.toNat_add, BitVec.toNat_add, BitVec.toNat_ofNat,
    BitVec.toNat_ofNat]
  omega

theorem Shows.putc (hbase : LOG_BASE.toNat + LOG_SIZE < 2 ^ 32) (h : Shows LOG_BASE m t l)
    (hc : c ≠ 0) : Shows LOG_BASE m (t.print [c]) (logPutc c l) := by
  have hfits := h.fits
  by_cases hroom : t.attached = true ∧ t.text.length < LOG_SIZE
  · obtain ⟨hattached, hlt⟩ := hroom
    have hptr := h.ptr
    rw [if_pos hattached] at hptr
    have htext : t.print [c] = { t with text := t.text ++ [c] } := by
      rw [Text.print, if_pos hattached, List.take_of_length_le]
      rw [List.length_append]
      exact hlt
    have hput : logPutc c l =
        ⟨store l.mem (LOG_BASE + BitVec.ofNat 32 t.text.length) c,
          LOG_BASE + BitVec.ofNat 32 (t.text.length + 1), l.log_end⟩ := by
      rw [logPutc, hptr, h.log_end, if_pos ((place_lt_end_iff hbase hfits).mpr hlt),
        BitVec.ofNat_add, ← BitVec.add_assoc]
      rfl
    rw [htext, hput]
    refine ⟨?_, ?_, ?_, ?_, h.log_end, ?_⟩
    · rw [List.length_append]
      exact hlt
    · intro d hd
      obtain hd | hd := List.mem_append.mp hd
      · exact h.ne_zero d hd
      · rw [List.mem_singleton.mp hd]
        exact hc
    · intro k hk
      have hplace : LOG_BASE + BitVec.ofNat 32 k = LOG_BASE + BitVec.ofNat 32 t.text.length ↔
          k = t.text.length := by
        rw [place_eq_iff (lt_trans hlt size_lt), add_ofNat_sub (lt_trans hk size_lt)]
      change store l.mem (LOG_BASE + BitVec.ofNat 32 t.text.length) c
        (LOG_BASE + BitVec.ofNat 32 k) = (t.text ++ [c]).getD k 0
      rw [Terminated.getD_snoc, store, Function.update_apply, h.cells k hk]
      congr 1
      rw [eq_iff_iff]
      exact hplace
    · rw [if_pos hattached, List.length_append]
      rfl
    · intro x hx
      have hne : ¬ x = LOG_BASE + BitVec.ofNat 32 t.text.length := by
        intro heq
        rw [place_eq_iff (lt_trans hlt size_lt)] at heq
        omega
      exact (Function.update_of_ne hne _ _).trans (h.frame x hx)
  · have htext : t.print [c] = t := by
      by_cases hattached : t.attached = true
      · have hfull : LOG_SIZE ≤ t.text.length := not_lt.mp fun hlt => hroom ⟨hattached, hlt⟩
        rw [Text.print, if_pos hattached, List.take_append_of_le_length hfull,
          List.take_of_length_le hfits]
      · rw [Text.print, if_neg hattached]
    have hput : logPutc c l = l := by
      rw [logPutc, if_neg]
      rw [h.ptr, h.log_end]
      by_cases hattached : t.attached = true
      · rw [if_pos hattached, place_lt_end_iff hbase hfits]
        exact fun hlt => hroom ⟨hattached, hlt⟩
      · rw [if_neg hattached]
        exact BitVec.lt_irrefl _
    rw [htext, hput]
    exact h

theorem Shows.print (hbase : LOG_BASE.toNat + LOG_SIZE < 2 ^ 32) (h : Shows LOG_BASE m t l)
    (hcs : ∀ c ∈ cs, c ≠ 0) :
    Shows LOG_BASE m (t.print cs) (cs.foldl (fun l c => logPutc c l) l) := by
  induction cs generalizing t l with
  | nil =>
    rw [Text.print_nil h.fits]
    exact h
  | cons c cs ih =>
    rw [Text.print_cons, List.foldl_cons]
    exact ih (h.putc hbase (hcs c List.mem_cons_self)) fun d hd => hcs d (List.mem_cons_of_mem c hd)

/-- The search of log_resume stops at the end of the text. -/
theorem skip_eq (hcells : ∀ k < LOG_SIZE, m (LOG_BASE + BitVec.ofNat 32 k) = t.text.getD k 0)
    (hfits : t.text.length ≤ LOG_SIZE) (hne : ∀ c ∈ t.text, c ≠ 0) (left : Nat)
    (hk : k + left = LOG_SIZE) (hle : k ≤ t.text.length) :
    skip m left (LOG_BASE + BitVec.ofNat 32 k) = LOG_BASE + BitVec.ofNat 32 t.text.length := by
  induction left generalizing k with
  | zero =>
    have heq : k = t.text.length := by omega
    rw [skip, heq]
  | succ left ih =>
    rw [skip, hcells k (by omega)]
    by_cases hend : k = t.text.length
    · rw [hend, List.getD_eq_default _ _ (Nat.le_refl _), if_pos rfl]
    · have hlt : k < t.text.length := lt_of_le_of_ne hle hend
      rw [List.getD_eq_getElem _ _ hlt, if_neg (hne _ (List.getElem_mem hlt))]
      have hnext : LOG_BASE + BitVec.ofNat 32 k + 1 = LOG_BASE + BitVec.ofNat 32 (k + 1) :=
        add_ofNat_add
      rw [hnext]
      exact ih (by omega) hlt

theorem Shows.resume (h : Shows LOG_BASE m t l) :
    Shows LOG_BASE m (t.step .resume) (logResume LOG_BASE l.mem) := by
  have hskip : skip l.mem LOG_SIZE LOG_BASE = LOG_BASE + BitVec.ofNat 32 t.text.length := by
    have hstart : LOG_BASE + BitVec.ofNat 32 0 = LOG_BASE := BitVec.add_zero LOG_BASE
    have heq := skip_eq h.cells h.fits h.ne_zero LOG_SIZE (Nat.zero_add _) (Nat.zero_le _)
    rwa [hstart] at heq
  have hend : LOG_BASE + BitVec.ofNat 32 t.text.length = logEnd LOG_BASE ↔
      ¬ t.text.length < LOG_SIZE := by
    rw [logEnd, place_eq_iff size_lt, add_ofNat_sub (lt_of_le_of_lt h.fits size_lt)]
    have hfits := h.fits
    omega
  rw [logResume, hskip, Text.step]
  by_cases hroom : t.text.length < LOG_SIZE
  · rw [if_neg (fun heq => hend.mp heq hroom), if_pos hroom]
    exact ⟨h.fits, h.ne_zero, h.cells, rfl, rfl, h.frame⟩
  · rw [if_pos (hend.mpr hroom), if_neg hroom]
    exact shows_init h.frame

/-- The printing functions hand the characters of `chars` to log_putc, and nothing else. -/
theorem Op.run_print (op : Op) (l : Log) (hprints : op.prints = true) :
    op.run LOG_BASE l = op.chars.foldl (fun l c => logPutc c l) l := by
  cases op with
  | init => cases hprints
  | resume => cases hprints
  | detach => cases hprints
  | puts s => exact tracePuts_eq logPutc s l
  | hex32 v =>
    rw [Op.chars, List.foldl_append]
    exact traceHex_eq logPutc v 8 _
  | dec v => exact traceDec_eq logPutc v l
  | rc code =>
    rw [Op.chars, List.foldl_append, List.foldl_append]
    have hputs : logPuts (ascii " rc=") l = (ascii " rc=").foldl (fun l c => logPutc c l) l := rfl
    rw [← hputs, ← traceDec_eq logPutc (-code)]
    rfl

theorem Op.chars_ne_zero (op : Op) : ∀ c ∈ op.chars, c ≠ 0 := by
  have hdec (v : Word) : ∀ c ∈ decDigits v.toNat false pow10, c ≠ 0 :=
    Call.chars_ne_zero (.dec v)
  have hhex : ∀ c ∈ ascii "0x", c ≠ 0 := by decide
  have hrc : ∀ c ∈ ascii " rc=", c ≠ 0 := by decide
  intro c hc
  cases op with
  | init => cases hc
  | resume => cases hc
  | detach => cases hc
  | puts s => exact mem_takeWhile_ne_zero hc
  | hex32 v =>
    obtain hc | hc := List.mem_append.mp hc
    · exact hhex c hc
    · exact hexChars_ne_zero hc
  | dec v => exact hdec v c hc
  | rc code =>
    obtain hc | hc := List.mem_append.mp hc
    · obtain hc | hc := List.mem_append.mp hc
      · exact hrc c hc
      · exact hdec (-code) c hc
    · rw [List.mem_singleton.mp hc]
      decide

/-- What one operation does to the window, it does to the text. -/
theorem Shows.run (hbase : LOG_BASE.toNat + LOG_SIZE < 2 ^ 32) (h : Shows LOG_BASE m t l)
    (op : Op) : Shows LOG_BASE m (t.step op) (op.run LOG_BASE l) := by
  cases op with
  | init => exact shows_init h.frame
  | resume => exact h.resume
  | detach => exact h.detach
  | puts s =>
    rw [Op.run_print _ l rfl]
    exact h.print hbase (Op.chars_ne_zero _)
  | hex32 v =>
    rw [Op.run_print _ l rfl]
    exact h.print hbase (Op.chars_ne_zero _)
  | dec v =>
    rw [Op.run_print _ l rfl]
    exact h.print hbase (Op.chars_ne_zero _)
  | rc code =>
    rw [Op.run_print _ l rfl]
    exact h.print hbase (Op.chars_ne_zero _)

theorem Shows.readBytes (h : Shows LOG_BASE m t l) : readBytes l.mem LOG_BASE LOG_SIZE =
    t.text ++ List.replicate (LOG_SIZE - t.text.length) 0 := by
  have hfits := h.fits
  apply List.ext_getElem?
  intro k
  by_cases hk : k < LOG_SIZE
  · rw [readBytes_getElem? _ _ _ _ hk, h.cells k hk]
    by_cases hlt : k < t.text.length
    · rw [List.getElem?_append_left hlt, List.getD_eq_getElem _ _ hlt, List.getElem?_eq_getElem hlt]
    · rw [List.getElem?_append_right (not_lt.mp hlt), List.getD_eq_default _ _ (not_lt.mp hlt),
        List.getElem?_replicate, if_pos (by omega)]
  · rw [List.getElem?_eq_none, List.getElem?_eq_none]
    · rw [List.length_append, List.length_replicate]
      omega
    · rw [readBytes_length]
      exact not_lt.mp hk

end AipcOs.LogWindow
