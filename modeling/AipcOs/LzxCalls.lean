import AipcOs.LzxBits
import AipcOs.OffsetTable

/-! wincedecompr.py: undo_e8_preprocessing, and the translation of CALL instructions that it
undoes. -/
namespace AipcOs.LzxCalls
open ByteMemory StructBytes OffsetTable LzxBits

def write (f : ByteFile) (bs : List Byte) : ByteFile :=
  { data := f.data.take f.pos ++ List.replicate (f.pos - f.data.length) 0 ++ bs ++
      f.data.drop (f.pos + bs.length)
    pos := f.pos + bs.length }

def signed (bs : List Byte) : Int :=
  if 2 * le bs < 256 ^ bs.length then le bs else (le bs : Int) - 256 ^ bs.length

/-- to_bytes(4, signed=True); nothing stands for OverflowError. -/
def toBytes (v : Int) : Option (List Byte) :=
  if -(2 ^ 31) ≤ v ∧ v < 2 ^ 31 then some (pack 4 (v % 2 ^ 32).toNat) else none

/-- while i < out_len - 10; every round takes `i` on by one at least. -/
def undoRounds (intel_filesize out_len : Nat) : (rounds i : Nat) → ByteFile → Option ByteFile
  | 0, _, f => some f
  | rounds + 1, i, f =>
    if (i : Int) < (out_len : Int) - 10 then
      let (byte, f) := f.read 1
      if le byte = 0xE8 then
        let (bs, f) := f.read 4
        let absolute_offset := signed bs
        if -(i : Int) ≤ absolute_offset ∧ absolute_offset < intel_filesize then do
          let absolute_offset :=
            absolute_offset + if absolute_offset ≥ 0 then -(i : Int) else intel_filesize
          let bs ← toBytes absolute_offset
          undoRounds intel_filesize out_len rounds (i + 5) (write (f.seekCur (-4)) bs)
        else undoRounds intel_filesize out_len rounds (i + 5) f
      else undoRounds intel_filesize out_len rounds (i + 1) f
    else some f

def undoE8Preprocessing (intel_started : Bool) (intel_filesize out_len : Nat) (out_f : ByteFile) :
    Option ByteFile :=
  if out_len ≥ 10 ∧ intel_started then
    undoRounds intel_filesize out_len out_len 0 { out_f with pos := 0 }
  else some out_f

/-- `g` on the four bytes behind every 0xE8 at a place before `limit`; the search goes on behind
the four bytes. -/
def scan (g : Nat → List Byte → List Byte) (limit : Nat) : (i : Nat) → List Byte → List Byte
  | i, x :: a :: b :: c :: d :: rest =>
    if i < limit ∧ x = 0xE8 then x :: (g i [a, b, c, d] ++ scan g limit (i + 5) rest)
    else x :: scan g limit (i + 1) (a :: b :: c :: d :: rest)
  | _, bs => bs

def toRelative (filesize i : Nat) (bs : List Byte) : List Byte :=
  let v := signed bs
  if -(i : Int) ≤ v ∧ v < filesize then
    pack 4 ((v + if v ≥ 0 then -(i : Int) else filesize) % 2 ^ 32).toNat
  else bs

def toAbsolute (filesize i : Nat) (bs : List Byte) : List Byte :=
  let v := signed bs
  if -(i : Int) ≤ v ∧ v < filesize then
    pack 4 ((v + if v < (filesize : Int) - i then (i : Int) else -(filesize : Int)) % 2 ^ 32).toNat
  else bs

def undoCalls (filesize : Nat) (bs : List Byte) : List Byte :=
  scan (toRelative filesize) (bs.length - 10) 0 bs

def makeCalls (filesize : Nat) (bs : List Byte) : List Byte :=
  scan (toAbsolute filesize) (bs.length - 10) 0 bs

theorem signed_pack {v : Int} (hlo : -(2 ^ 31) ≤ v) (hhi : v < 2 ^ 31) :
    signed (pack 4 (v % 2 ^ 32).toNat) = v := by
  have hlt : (v % 2 ^ 32).toNat < 256 ^ 4 := by omega
  rw [signed, le_pack, pack_length, Nat.mod_eq_of_lt hlt]
  split <;> omega

theorem signed_range {bs : List Byte} (h : bs.length = 4) :
    -(2 ^ 31) ≤ signed bs ∧ signed bs < 2 ^ 31 := by
  have hlt := le_lt bs
  rw [h] at hlt
  rw [signed, h]
  split <;> omega

theorem pack_signed {bs : List Byte} (h : bs.length = 4) :
    pack 4 (signed bs % 2 ^ 32).toNat = bs := by
  have hlt := le_lt bs
  have hmod : (signed bs % 2 ^ 32).toNat = le bs := by
    rw [h] at hlt
    rw [signed, h]
    split <;> omega
  have hpack := pack_le bs
  rw [h] at hpack
  rw [hmod, hpack]

section scan

variable {g g' : Nat → List Byte → List Byte} {limit i : Nat} {x : Byte}

theorem scan_nil : scan g limit i [] = [] := by
  rw [scan]
  intro x a b c d rest heq
  cases heq

theorem scan_short {bs : List Byte} (h : bs.length < 5) : scan g limit i bs = bs := by
  rw [scan]
  intro x a b c d rest heq
  rw [heq] at h
  simp only [List.length_cons] at h
  omega

theorem exists_four {bs : List Byte} (h : 4 ≤ bs.length) :
    ∃ a b c d rest, bs = a :: b :: c :: d :: rest := by
  obtain ⟨a, bs1, rfl⟩ := List.exists_cons_of_length_pos (by omega : 0 < bs.length)
  rw [List.length_cons] at h
  obtain ⟨b, bs2, rfl⟩ := List.exists_cons_of_length_pos (by omega : 0 < bs1.length)
  rw [List.length_cons] at h
  obtain ⟨c, bs3, rfl⟩ := List.exists_cons_of_length_pos (by omega : 0 < bs2.length)
  rw [List.length_cons] at h
  obtain ⟨d, bs4, rfl⟩ := List.exists_cons_of_length_pos (by omega : 0 < bs3.length)
  exact ⟨a, b, c, d, bs4, rfl⟩

theorem scan_other {bs : List Byte} (h : ¬(i < limit ∧ x = 0xE8)) :
    scan g limit i (x :: bs) = x :: scan g limit (i + 1) bs := by
  by_cases hlen : bs.length < 4
  · rw [scan_short (by rw [List.length_cons]; omega), scan_short (by omega)]
  · obtain ⟨a, b, c, d, rest, rfl⟩ := exists_four (by omega : 4 ≤ bs.length)
    rw [scan, if_neg h]

theorem scan_call {w rest : List Byte} (hi : i < limit) (hw : w.length = 4) :
    scan g limit i (0xE8 :: (w ++ rest)) = 0xE8 :: (g i w ++ scan g limit (i + 5) rest) := by
  obtain ⟨a, b, c, d, tail, rfl⟩ := exists_four hw.ge
  obtain rfl : tail = [] := List.length_eq_zero_iff.mp (by simpa using hw)
  change scan g limit i (0xE8 :: a :: b :: c :: d :: rest) = _
  rw [scan, if_pos ⟨hi, rfl⟩]

/-- A list is empty, has a call at its head or something else. -/
theorem scan_induction (limit : Nat) {motive : Nat → List Byte → Prop}
    (nil : ∀ i, motive i [])
    (other : ∀ i x bs, ¬(i < limit ∧ x = 0xE8) → motive (i + 1) bs → motive i (x :: bs))
    (call : ∀ i w rest, i < limit → w.length = 4 → motive (i + 5) rest →
      motive i (0xE8 :: (w ++ rest)))
    {i : Nat} {bs : List Byte} (hlen : i + bs.length = limit + 10 ∨ limit = 0) : motive i bs := by
  induction hn : bs.length using Nat.strong_induction_on generalizing i bs with
  | _ n ih =>
    cases bs with
    | nil => exact nil i
    | cons x bs =>
      rw [List.length_cons] at hlen hn
      by_cases h : i < limit ∧ x = 0xE8
      · obtain ⟨hi, rfl⟩ := h
        have h4 : 4 ≤ bs.length := by omega
        rw [← List.take_append_drop 4 bs]
        apply call i _ _ hi (by rw [List.length_take]; omega)
        exact ih (bs.length - 4) (by omega) (by rw [List.length_drop]; omega) (List.length_drop)
      · exact other i x bs h (ih bs.length (by omega) (by omega) rfl)

variable {bs : List Byte} (hlen : i + bs.length = limit + 10 ∨ limit = 0)
include hlen

theorem scan_length (hg : ∀ i w, w.length = 4 → (g i w).length = 4) :
    (scan g limit i bs).length = bs.length := by
  refine scan_induction limit (motive := fun i bs => (scan g limit i bs).length = bs.length) ?_ ?_ ?_ hlen
  · intro i
    rw [scan_nil]
  · intro i x bs h ih
    rw [scan_other h, List.length_cons, List.length_cons, ih]
  · intro i w rest hi hw ih
    rw [scan_call hi hw, List.length_cons, List.length_cons, List.length_append, List.length_append,
      hg i w hw, hw, ih]

/-- One translation undoes another when it does so at every call. -/
theorem scan_scan (hg : ∀ i w, w.length = 4 → (g i w).length = 4)
    (hinv : ∀ i < limit, ∀ w : List Byte, w.length = 4 → g' i (g i w) = w) :
    scan g' limit i (scan g limit i bs) = bs := by
  refine scan_induction limit (motive := fun i bs => scan g' limit i (scan g limit i bs) = bs)
    ?_ ?_ ?_ hlen
  · intro i
    rw [scan_nil, scan_nil]
  · intro i x bs h ih
    rw [scan_other h, scan_other h, ih]
  · intro i w rest hi hw ih
    rw [scan_call hi hw, scan_call hi (hg i w hw), hinv i hi w hw, ih]

omit hlen in
theorem scan_of_not_mem {bs : List Byte} (h : (0xE8 : Byte) ∉ bs) : scan g limit i bs = bs := by
  induction bs generalizing i with
  | nil => exact scan_nil
  | cons x bs ih =>
    have hx : ¬(i < limit ∧ x = 0xE8) := by
      intro hc
      exact h (hc.2 ▸ List.mem_cons_self)
    rw [scan_other hx, ih (fun hm => h (List.mem_cons_of_mem x hm))]

end scan

section offsets

variable {filesize i : Nat} {w : List Byte}

theorem toRelative_length (hw : w.length = 4) : (toRelative filesize i w).length = 4 := by
  rw [toRelative]
  split
  · exact pack_length 4 _
  · exact hw

theorem toAbsolute_length (hw : w.length = 4) : (toAbsolute filesize i w).length = 4 := by
  rw [toAbsolute]
  split
  · exact pack_length 4 _
  · exact hw

/-- The two translations turn the same range of offsets against each other. -/
theorem toRelative_toAbsolute (hf : filesize ≤ 2 ^ 31) (hi : i ≤ 2 ^ 31) (hw : w.length = 4) :
    toRelative filesize i (toAbsolute filesize i w) = w := by
  have hr := signed_range hw
  rw [toAbsolute]
  by_cases hin : -(i : Int) ≤ signed w ∧ signed w < filesize
  · rw [if_pos hin]
    by_cases hlt : signed w < (filesize : Int) - i
    · have hs := signed_pack (v := signed w + i) (by omega) (by omega)
      rw [if_pos hlt, toRelative]
      simp only [hs]
      rw [if_pos (by omega), if_pos (by omega), Int.add_neg_cancel_right, pack_signed hw]
    · have hs := signed_pack (v := signed w + -(filesize : Int)) (by omega) (by omega)
      rw [if_neg hlt, toRelative]
      simp only [hs]
      rw [if_pos (by omega), if_neg (by omega), Int.neg_add_cancel_right, pack_signed hw]
  · rw [if_neg hin, toRelative, if_neg hin]

theorem toAbsolute_toRelative (hf : filesize ≤ 2 ^ 31) (hi : i ≤ 2 ^ 31) (hw : w.length = 4) :
    toAbsolute filesize i (toRelative filesize i w) = w := by
  have hr := signed_range hw
  rw [toRelative]
  by_cases hin : -(i : Int) ≤ signed w ∧ signed w < filesize
  · rw [if_pos hin]
    by_cases hge : signed w ≥ 0
    · have hs := signed_pack (v := signed w + -(i : Int)) (by omega) (by omega)
      rw [if_pos hge, toAbsolute]
      simp only [hs]
      rw [if_pos (by omega), if_pos (by omega), Int.neg_add_cancel_right, pack_signed hw]
    · have hs := signed_pack (v := signed w + filesize) (by omega) (by omega)
      rw [if_neg hge, toAbsolute]
      simp only [hs]
      rw [if_pos (by omega), if_neg (by omega), Int.add_neg_cancel_right, pack_signed hw]
  · rw [if_neg hin, toAbsolute, if_neg hin]

/-- A file size of zero translates nothing. -/
theorem toRelative_zero (hw : w.length = 4) : toRelative 0 i w = w := by
  rw [toRelative]
  by_cases hin : -(i : Int) ≤ signed w ∧ signed w < (0 : Nat)
  · have hneg : ¬ signed w ≥ 0 := by omega
    have hsame : signed w + (0 : Nat) = signed w := by omega
    rw [if_pos hin, if_neg hneg, hsame, pack_signed hw]
  · rw [if_neg hin]

end offsets

section undo

variable {filesize out_len : Nat}

theorem read_front (pre bs rest : List Byte) :
    ByteFile.read ⟨pre ++ (bs ++ rest), pre.length⟩ bs.length =
      (bs, ⟨pre ++ (bs ++ rest), pre.length + bs.length⟩) := by
  have hs : slice (pre ++ (bs ++ rest)) pre.length bs.length = bs := by
    rw [slice, List.drop_left, List.take_left']
    rfl
  rw [ByteFile.read]
  simp only [hs]

theorem write_over (pre bs rest : List Byte) {bs' : List Byte} (h : bs'.length = bs.length) :
    write ⟨pre ++ (bs ++ rest), pre.length⟩ bs' =
      ⟨pre ++ (bs' ++ rest), pre.length + bs.length⟩ := by
  have hpad : pre.length - (pre ++ (bs ++ rest)).length = 0 := by
    rw [List.length_append]
    omega
  have hdrop : (pre ++ (bs ++ rest)).drop (pre.length + bs.length) = rest := by
    rw [← List.drop_drop, List.drop_left, List.drop_left]
  rw [write]
  simp only [hpad, h, hdrop]
  rw [List.take_left, List.replicate_zero, List.append_nil, List.append_assoc]

theorem le_eq_iff (x v : Byte) : le [x] = v.toNat ↔ x = v := by
  have hle : le [x] = x.toNat := by simp [le]
  rw [hle, BitVec.toNat_eq]

theorem scan_done {g : Nat → List Byte → List Byte} {limit i : Nat} {bs : List Byte}
    (h : limit ≤ i) : scan g limit i bs = bs := by
  induction bs generalizing i with
  | nil => exact scan_nil
  | cons x bs ih => rw [scan_other (by omega), ih (by omega)]

theorem undoRounds_stop {rounds i : Nat} (h : out_len ≤ i + 10) (f : ByteFile) :
    undoRounds filesize out_len rounds i f = some f := by
  cases rounds with
  | zero => rfl
  | succ rounds => rw [undoRounds, if_neg (by omega)]

theorem undoRounds_other {rounds i : Nat} {pre bs : List Byte} {x : Byte} (hpre : pre.length = i)
    (hi : i + 10 < out_len) (hx : x ≠ 0xE8) :
    undoRounds filesize out_len (rounds + 1) i ⟨pre ++ x :: bs, i⟩ =
      undoRounds filesize out_len rounds (i + 1) ⟨pre ++ [x] ++ bs, i + 1⟩ := by
  have hread := read_front pre [x] bs
  rw [hpre, List.length_singleton, List.singleton_append] at hread
  have hne : ¬ le [x] = 0xE8 := fun h => hx ((le_eq_iff x 0xE8).mp h)
  rw [undoRounds, if_pos (by omega), hread]
  simp only
  rw [if_neg hne, List.append_assoc, List.singleton_append]

/-- A call is translated in its place. -/
theorem undoRounds_call {rounds i : Nat} {pre w rest : List Byte} (hf : filesize ≤ 2 ^ 31)
    (hn : out_len ≤ 2 ^ 31) (hpre : pre.length = i) (hi : i + 10 < out_len) (hw : w.length = 4) :
    undoRounds filesize out_len (rounds + 1) i ⟨pre ++ 0xE8 :: (w ++ rest), i⟩ =
      undoRounds filesize out_len rounds (i + 5)
        ⟨pre ++ 0xE8 :: toRelative filesize i w ++ rest, i + 5⟩ := by
  have hread := read_front pre [0xE8] (w ++ rest)
  rw [hpre, List.length_singleton, List.singleton_append] at hread
  have hcall : le [(0xE8 : Byte)] = 0xE8 := by decide
  have happ : pre ++ 0xE8 :: (w ++ rest) = (pre ++ [0xE8]) ++ (w ++ rest) := by
    rw [List.append_assoc, List.singleton_append]
  have hpre' : (pre ++ [0xE8]).length = i + 1 := by
    rw [List.length_append, List.length_singleton, hpre]
  have hread' := read_front (pre ++ [0xE8]) w rest
  rw [hpre', hw, ← happ] at hread'
  have hr := signed_range hw
  rw [undoRounds, if_pos (by omega), hread]
  simp only
  rw [if_pos hcall, hread']
  simp only
  rw [toRelative]
  by_cases hin : -(i : Int) ≤ signed w ∧ signed w < filesize
  · have hbytes : toBytes (signed w + if signed w ≥ 0 then -(i : Int) else filesize) =
        some (pack 4 ((signed w + if signed w ≥ 0 then -(i : Int) else filesize) % 2 ^ 32).toNat) := by
      rw [toBytes, if_pos]
      split <;> omega
    have hseek : ByteFile.seekCur ⟨pre ++ 0xE8 :: (w ++ rest), i + 1 + 4⟩ (-4) =
        ⟨(pre ++ [0xE8]) ++ (w ++ rest), i + 1⟩ := by
      have hpos : (((i + 1 + 4 : Nat) : Int) + -4).toNat = i + 1 := by omega
      rw [ByteFile.seekCur, happ]
      simp only [hpos]
    rw [if_pos hin, if_pos hin, hbytes, hseek, ← hpre', Option.bind_eq_bind, Option.bind_some,
      write_over _ _ _ (by rw [pack_length, hw]), hw, hpre', List.append_assoc, List.append_assoc,
      List.singleton_append, List.cons_append]
  · rw [if_neg hin, if_neg hin, List.append_assoc, List.cons_append]

/-- The loop translates what stands behind its place. -/
theorem undoRounds_eq (hf : filesize ≤ 2 ^ 31) (hn : out_len ≤ 2 ^ 31) (h10 : 10 ≤ out_len)
    {i : Nat} {bs : List Byte} (hlen : i + bs.length = out_len) :
    ∀ pre rounds, pre.length = i → out_len ≤ i + rounds →
      ∃ f, undoRounds filesize out_len rounds i ⟨pre ++ bs, i⟩ = some f ∧
        f.data = pre ++ scan (toRelative filesize) (out_len - 10) i bs := by
  refine scan_induction (out_len - 10) (motive := fun i bs => i + bs.length = out_len →
    ∀ pre rounds, pre.length = i → out_len ≤ i + rounds →
      ∃ f, undoRounds filesize out_len rounds i ⟨pre ++ bs, i⟩ = some f ∧
        f.data = pre ++ scan (toRelative filesize) (out_len - 10) i bs) ?_ ?_ ?_ ?_ hlen
  · intro i hi pre rounds _ _
    rw [List.length_nil] at hi
    exact ⟨_, undoRounds_stop (by omega) _, by rw [scan_nil]⟩
  · intro i x bs hx ih hi pre rounds hpre hr
    rw [List.length_cons] at hi
    by_cases hlim : i < out_len - 10
    · obtain ⟨r, rfl⟩ : ∃ r, rounds = r + 1 := ⟨rounds - 1, by omega⟩
      have hpre' : (pre ++ [x]).length = i + 1 := by
        rw [List.length_append, List.length_singleton, hpre]
      obtain ⟨f, hf', hdata⟩ := ih (by omega) (pre ++ [x]) r hpre' (by omega)
      refine ⟨f, ?_, ?_⟩
      · rw [undoRounds_other hpre (by omega) (fun h => hx ⟨hlim, h⟩), hf']
      · rw [hdata, scan_other hx, List.append_assoc, List.singleton_append]
    · exact ⟨_, undoRounds_stop (by omega) _, by rw [scan_done (by omega)]⟩
  · intro i w rest hlim hw ih hi pre rounds hpre hr
    rw [List.length_cons, List.length_append] at hi
    obtain ⟨r, rfl⟩ : ∃ r, rounds = r + 1 := ⟨rounds - 1, by omega⟩
    have hw' : (toRelative filesize i w).length = 4 := toRelative_length hw
    have hpre' : (pre ++ 0xE8 :: toRelative filesize i w).length = i + 5 := by
      rw [List.length_append, List.length_cons, hw', hpre]
    obtain ⟨f, hf', hdata⟩ := ih (by omega) _ r hpre' (by omega)
    refine ⟨f, ?_, ?_⟩
    · rw [undoRounds_call hf hn hpre (by omega) hw, hf']
    · rw [hdata, scan_call hlim hw, List.append_assoc, List.cons_append]
  · omega

/-- The decoder takes the translation back in its output file. -/
theorem undoE8Preprocessing_eq {bs : List Byte} (hf : filesize ≤ 2 ^ 31)
    (hn : bs.length ≤ 2 ^ 31) (pos : Nat) :
    ∃ f, undoE8Preprocessing true filesize bs.length ⟨bs, pos⟩ = some f ∧
      f.data = undoCalls filesize bs := by
  rw [undoE8Preprocessing, undoCalls]
  by_cases h10 : bs.length ≥ 10
  · rw [if_pos ⟨h10, rfl⟩]
    exact undoRounds_eq hf hn h10 (Nat.zero_add _) [] bs.length rfl (by omega)
  · rw [if_neg (fun h => h10 h.1), scan_done (by omega)]
    exact ⟨_, rfl, rfl⟩

end undo

variable {filesize : Nat} {bs : List Byte}

theorem makeCalls_length : (makeCalls filesize bs).length = bs.length :=
  scan_length (by omega) fun _ _ hw => toAbsolute_length hw

theorem undoCalls_length : (undoCalls filesize bs).length = bs.length :=
  scan_length (by omega) fun _ _ hw => toRelative_length hw

theorem undoCalls_makeCalls (hf : filesize ≤ 2 ^ 31) (hn : bs.length ≤ 2 ^ 31) :
    undoCalls filesize (makeCalls filesize bs) = bs := by
  rw [undoCalls, makeCalls_length, makeCalls]
  exact scan_scan (by omega) (fun _ _ hw => toAbsolute_length hw)
    fun i hi w hw => toRelative_toAbsolute hf (by omega) hw

theorem makeCalls_undoCalls (hf : filesize ≤ 2 ^ 31) (hn : bs.length ≤ 2 ^ 31) :
    makeCalls filesize (undoCalls filesize bs) = bs := by
  rw [makeCalls, undoCalls_length, undoCalls]
  exact scan_scan (by omega) (fun _ _ hw => toRelative_length hw)
    fun i hi w hw => toAbsolute_toRelative hf (by omega) hw

theorem undoCalls_zero : undoCalls 0 bs = bs := by
  refine scan_induction (bs.length - 10)
    (motive := fun i bs' => scan (toRelative 0) (bs.length - 10) i bs' = bs') ?_ ?_ ?_ (by omega)
  · intro i
    rw [scan_nil]
  · intro i x rest h ih
    rw [scan_other h, ih]
  · intro i w rest hi hw ih
    rw [scan_call hi hw, toRelative_zero hw, ih]

/-- The decoder takes back the translation of the encoder, and the encoder that of the decoder. -/
theorem undoE8Preprocessing_inverse (hf : filesize ≤ 2 ^ 31) (hn : bs.length ≤ 2 ^ 31) (pos : Nat) :
    (∃ f, undoE8Preprocessing true filesize bs.length ⟨makeCalls filesize bs, pos⟩ = some f ∧
      f.data = bs) ∧
    ∃ f, undoE8Preprocessing true filesize bs.length ⟨bs, pos⟩ = some f ∧
      makeCalls filesize f.data = bs := by
  constructor
  · have hlen : (makeCalls filesize bs).length ≤ 2 ^ 31 := makeCalls_length.trans_le hn
    obtain ⟨f, hrun, hdata⟩ := undoE8Preprocessing_eq hf hlen pos
    rw [makeCalls_length] at hrun
    exact ⟨f, hrun, hdata.trans (undoCalls_makeCalls hf hn)⟩
  · obtain ⟨f, hrun, hdata⟩ := undoE8Preprocessing_eq hf hn pos
    refine ⟨f, hrun, ?_⟩
    rw [hdata, makeCalls_undoCalls hf hn]

/-- A call at place 2 to an offset that is turned. -/
theorem undoE8Preprocessing_inverse_call :
    (∃ f, undoE8Preprocessing true 4096 ([9, 9, 0xE8, 0xFF, 0x0F] ++ List.replicate 11 0).length
        ⟨makeCalls 4096 ([9, 9, 0xE8, 0xFF, 0x0F] ++ List.replicate 11 0), 0⟩ = some f ∧
      f.data = [9, 9, 0xE8, 0xFF, 0x0F] ++ List.replicate 11 0) ∧
    ∃ f, undoE8Preprocessing true 4096 ([9, 9, 0xE8, 0xFF, 0x0F] ++ List.replicate 11 0).length
        ⟨[9, 9, 0xE8, 0xFF, 0x0F] ++ List.replicate 11 0, 0⟩ = some f ∧
      makeCalls 4096 f.data = [9, 9, 0xE8, 0xFF, 0x0F] ++ List.replicate 11 0 := by
  have hf : 4096 ≤ 2 ^ 31 := by decide
  have hn : ([9, 9, 0xE8, 0xFF, 0x0F] ++ List.replicate 11 (0 : Byte)).length ≤ 2 ^ 31 := by decide
  exact undoE8Preprocessing_inverse hf hn 0

end AipcOs.LzxCalls
