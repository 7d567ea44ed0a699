import AipcOs.Ini

/-! Where ini_parse stores into the text it parses, and that it ends. -/
namespace AipcOs.Ini
open ByteMemory HexText
variable {σ : Type*}

def trimWrite (buf : List Byte) (s fin : Nat) : Nat :=
  backOver buf (s + (((buf.drop s).take (fin - s)).takeWhile isBlank).length) fin

def headerWrites (buf : List Byte) (s : Nat) : List Nat :=
  let close := scan (fun c => c = chr ']') buf s
  if byteAt buf close ≠ chr ']' then [] else [trimWrite buf (s + 1) close]

def keyWrites (buf : List Byte) (s : Nat) : List Nat :=
  let eq := scan (fun c => c = chr '=') buf s
  if byteAt buf eq ≠ chr '=' then []
  else
    let buf := buf.set eq 0
    let named := (trim buf s eq).1
    [eq, trimWrite buf s eq, trimWrite named (eq + 1) (scan (fun _ => false) named (eq + 1))]

/-- The stores of one line's pass, in order. A line that is not valid has been trimmed too. -/
def lineWrites (buf : List Byte) (text fin : Nat) : List Nat :=
  let (trimmed, s) := trim buf text fin
  let c := byteAt trimmed s
  trimWrite buf text fin ::
    if c = 0 ∨ c = chr ';' ∨ c = chr '#' then []
    else if c = chr '[' then headerWrites trimmed s
    else keyWrites trimmed s

def clear (buf : List Byte) (writes : List Nat) : List Byte := writes.foldl (fun b i => b.set i 0) buf

/-- ini_parse for at most `fuel` turns of its loop, with the offsets of all its stores. -/
def iniTrace (h : σ → Entry → Int × σ) : (fuel : Nat) → (buf : List Byte) → (text line : Nat) →
    Option Nat → σ → Option (List Nat × Int × σ)
  | 0, _, _, _, _, _ => none
  | fuel + 1, buf, text, line, sec, ctx =>
    if byteAt buf text = 0 then some ([], 0, ctx)
    else
      let writes := lineWrites buf text (lineEnd buf text)
      let next := nextLine buf text
      match parseLine buf text (lineEnd buf text) with
      | .skip buf' =>
        (iniTrace h fuel buf' next (line + 1) sec ctx).map fun r => (writes ++ r.1, r.2)
      | .header buf' sec' =>
        (iniTrace h fuel buf' next (line + 1) (some sec') ctx).map fun r => (writes ++ r.1, r.2)
      | .key buf' name value =>
        let rc := h ctx
          ⟨sec, (sec.map (cstr buf')).getD [], cstr buf' name, cstr buf' value, line + 1⟩
        if rc.1 ≠ 0 then some (writes, rc)
        else (iniTrace h fuel buf' next (line + 1) sec rc.2).map fun r => (writes ++ r.1, r.2)
      | .invalid => some (writes, line + 1, ctx)

theorem parseHeader_clear {buf buf' : List Byte} {s : Nat}
    (h : (parseHeader buf s).buf? = some buf') : buf' = clear buf (headerWrites buf s) := by
  unfold parseHeader at h
  simp only at h
  rw [headerWrites]
  split at h
  · cases h
  · rename_i hc
    rw [if_neg hc]
    cases h
    rfl

theorem parseKey_clear {buf buf' : List Byte} {s : Nat}
    (h : (parseKey buf s).buf? = some buf') : buf' = clear buf (keyWrites buf s) := by
  unfold parseKey at h
  simp only at h
  rw [keyWrites]
  split at h
  · cases h
  · rename_i hc
    rw [if_neg hc]
    cases h
    rfl

/-- The offsets are those of the stores: the buffer is the old one with them cleared. -/
theorem parseLine_clear {buf buf' : List Byte} {text fin : Nat}
    (h : (parseLine buf text fin).buf? = some buf') :
    buf' = clear buf (lineWrites buf text fin) := by
  unfold parseLine at h
  simp only at h
  rw [lineWrites]
  simp only
  split at h
  · rename_i hc
    rw [if_pos hc]
    cases h
    rfl
  · rename_i hc
    rw [if_neg hc]
    split at h
    · rename_i ho
      rw [if_pos ho]
      exact parseHeader_clear h
    · rename_i ho
      rw [if_neg ho]
      exact parseKey_clear h

theorem takeWhile_length_le {p : Byte → Bool} {l : List Byte} {n : Nat}
    (h : p (l.getD n 0) = false) : (l.takeWhile p).length ≤ n := by
  induction l generalizing n with
  | nil => exact Nat.zero_le n
  | cons x l ih =>
    cases n with
    | zero =>
      rw [List.getD_cons_zero] at h
      rw [List.takeWhile_cons_of_neg (by simp [h])]
      exact Nat.le_refl 0
    | succ n =>
      rw [List.getD_cons_succ] at h
      have hrest := ih h
      rw [List.takeWhile_cons]
      split
      · exact Nat.succ_le_succ hrest
      · exact Nat.zero_le _

/-- No scan goes past a NUL. -/
theorem scan_le {stop : Byte → Bool} {buf : List Byte} {i k : Nat} (hk : byteAt buf k = 0)
    (hik : i ≤ k) : scan stop buf i ≤ k := by
  have hget : (buf.drop i).getD (k - i) 0 = 0 := by
    rw [List.getD_eq_getElem?_getD, List.getElem?_drop, Nat.add_sub_cancel' hik,
      ← List.getD_eq_getElem?_getD]
    exact hk
  have hlen : ((buf.drop i).takeWhile fun c => decide (c ≠ 0) && !stop c).length ≤ k - i := by
    apply takeWhile_length_le
    rw [hget]
    rfl
  rw [scan]
  omega

theorem le_scan (stop : Byte → Bool) (buf : List Byte) (i : Nat) : i ≤ scan stop buf i :=
  Nat.le_add_right i _

theorem backOver_le (buf : List Byte) (s e : Nat) : backOver buf s e ≤ e := by
  induction e with
  | zero => exact Nat.le_refl 0
  | succ e ih =>
    rw [backOver]
    split
    · omega
    · exact Nat.le_refl _

theorem trimWrite_le (buf : List Byte) (s fin : Nat) : trimWrite buf s fin ≤ fin :=
  backOver_le _ _ _

theorem trim_start_le (buf : List Byte) {s fin : Nat} (h : s ≤ fin) : (trim buf s fin).2 ≤ fin := by
  have hle := (List.takeWhile_prefix (l := (buf.drop s).take (fin - s)) isBlank).length_le
  rw [List.length_take] at hle
  simp only [trim]
  omega

theorem byteAt_set_zero {buf : List Byte} {k : Nat} (i : Nat) (hk : byteAt buf k = 0) :
    byteAt (buf.set i 0) k = 0 := by
  simp only [byteAt, List.getD_eq_getElem?_getD, List.getElem?_set] at hk ⊢
  split
  · split <;> rfl
  · exact hk

theorem byteAt_clear {buf : List Byte} {k : Nat} (writes : List Nat) (hk : byteAt buf k = 0) :
    byteAt (clear buf writes) k = 0 := by
  induction writes generalizing buf with
  | nil => exact hk
  | cons i writes ih => exact ih (byteAt_set_zero i hk)

section Bounds
variable {buf : List Byte} {k : Nat} (hk : byteAt buf k = 0)
include hk

theorem headerWrites_le {s : Nat} (hs : s ≤ k) : ∀ i ∈ headerWrites buf s, i ≤ k := by
  have hclose : scan (fun c => c = chr ']') buf s ≤ k := scan_le hk hs
  intro i hi
  rw [headerWrites] at hi
  split at hi
  · cases hi
  · rw [List.mem_singleton] at hi
    have hle := trimWrite_le buf (s + 1) (scan (fun c => c = chr ']') buf s)
    omega

theorem keyWrites_le {s : Nat} (hs : s ≤ k) : ∀ i ∈ keyWrites buf s, i ≤ k := by
  have heq : scan (fun c => c = chr '=') buf s ≤ k := scan_le hk hs
  intro i hi
  rw [keyWrites] at hi
  generalize scan (fun c => c = chr '=') buf s = eq at hi heq
  simp only at hi
  split at hi
  · cases hi
  · rename_i hc
    rw [not_not] at hc
    have hne : eq ≠ k := by
      intro heq
      obtain rfl := heq
      rw [hk] at hc
      exact absurd hc (by decide)
    have hnamed : byteAt (trim (buf.set eq 0) s eq).1 k = 0 :=
      byteAt_set_zero _ (byteAt_set_zero eq hk)
    have hend : scan (fun _ => false) (trim (buf.set eq 0) s eq).1 (eq + 1) ≤ k :=
      scan_le hnamed (by omega)
    have hname := trimWrite_le (buf.set eq 0) s eq
    have hvalue := trimWrite_le (trim (buf.set eq 0) s eq).1 (eq + 1)
      (scan (fun _ => false) (trim (buf.set eq 0) s eq).1 (eq + 1))
    simp only [List.mem_cons, List.not_mem_nil, or_false] at hi
    obtain rfl | rfl | rfl := hi <;> omega

/-- A line's stores stay in front of the text's terminator, or on it. -/
theorem lineWrites_le {text : Nat} (ht : text ≤ k) :
    ∀ i ∈ lineWrites buf text (lineEnd buf text), i ≤ k := by
  have hend : lineEnd buf text ≤ k := scan_le hk ht
  have hle : text ≤ lineEnd buf text := le_scan _ buf text
  have hs := trim_start_le buf hle
  have hk' : byteAt (trim buf text (lineEnd buf text)).1 k = 0 := byteAt_set_zero _ hk
  intro i hi
  rw [lineWrites] at hi
  simp only [List.mem_cons] at hi
  obtain rfl | hi := hi
  · exact (trimWrite_le _ _ _).trans hend
  · split at hi
    · cases hi
    · split at hi
      · exact headerWrites_le hk' (hs.trans hend) i hi
      · exact keyWrites_le hk' (hs.trans hend) i hi

theorem nextLine_le {text : Nat} (ht : text ≤ k) : nextLine buf text ≤ k := by
  have hend : lineEnd buf text ≤ k := scan_le hk ht
  rw [nextLine]
  split
  · exact hend
  · rename_i hne
    have hk' : lineEnd buf text ≠ k := fun h => hne (h ▸ hk)
    omega

end Bounds

theorem lt_nextLine {buf : List Byte} {text : Nat} (h : byteAt buf text ≠ 0) :
    text < nextLine buf text := by
  have hle : text ≤ lineEnd buf text := le_scan _ buf text
  rw [nextLine]
  split
  · rename_i hz
    have hne : text ≠ lineEnd buf text := fun heq => h (heq ▸ hz)
    omega
  · omega

/-- What one turn of the loop leads to. -/
theorem parseFrom_turn (h : σ → Entry → Int × σ) {buf : List Byte} {text : Nat} (line : Nat)
    (sec : Option Nat) (ctx : σ) (hz : byteAt buf text ≠ 0) :
    parseFrom h buf text line sec ctx =
      match parseLine buf text (lineEnd buf text) with
      | .skip buf' => parseFrom h buf' (nextLine buf text) (line + 1) sec ctx
      | .header buf' sec' => parseFrom h buf' (nextLine buf text) (line + 1) (some sec') ctx
      | .key buf' name value =>
        let rc := h ctx
          ⟨sec, (sec.map (cstr buf')).getD [], cstr buf' name, cstr buf' value, line + 1⟩
        if rc.1 ≠ 0 then rc
        else parseFrom h buf' (nextLine buf text) (line + 1) sec rc.2
      | .invalid => ((line : Int) + 1, ctx) := by
  rw [parseFrom, dif_neg hz]
  split <;> rename_i hp <;> simp only [hp]

/-- A text that ends at `k` takes no more turns than it has bytes, and none stores behind `k`. -/
theorem iniTrace_spec (h : σ → Entry → Int × σ) (fuel : Nat) {buf : List Byte} {k text line : Nat}
    {sec : Option Nat} {ctx : σ} (hk : byteAt buf k = 0) (ht : text ≤ k) (hf : k - text < fuel) :
    ∃ writes, iniTrace h fuel buf text line sec ctx =
        some (writes, parseFrom h buf text line sec ctx) ∧ ∀ i ∈ writes, i ≤ k := by
  induction fuel generalizing buf text line sec ctx with
  | zero => omega
  | succ fuel ih =>
    rw [iniTrace]
    by_cases hz : byteAt buf text = 0
    · rw [if_pos hz, parseFrom, dif_pos hz]
      exact ⟨[], rfl, fun i hi => by cases hi⟩
    · rw [if_neg hz, parseFrom_turn h line sec ctx hz]
      have hw := lineWrites_le hk ht
      have hnext := nextLine_le hk ht
      have hprog := lt_nextLine hz
      have hkeep {buf' : List Byte}
          (hp : (parseLine buf text (lineEnd buf text)).buf? = some buf') : byteAt buf' k = 0 := by
        rw [parseLine_clear hp]
        exact byteAt_clear _ hk
      have hgo {buf' : List Byte} {sec' : Option Nat} {ctx' : σ}
          (hp : (parseLine buf text (lineEnd buf text)).buf? = some buf') :
          ∃ writes, (iniTrace h fuel buf' (nextLine buf text) (line + 1) sec' ctx').map
              (fun r => (lineWrites buf text (lineEnd buf text) ++ r.1, r.2)) =
              some (writes, parseFrom h buf' (nextLine buf text) (line + 1) sec' ctx') ∧
            ∀ i ∈ writes, i ≤ k := by
        obtain ⟨writes, hrun, hbound⟩ :
            ∃ writes, iniTrace h fuel buf' (nextLine buf text) (line + 1) sec' ctx' =
              some (writes, parseFrom h buf' (nextLine buf text) (line + 1) sec' ctx') ∧
              ∀ i ∈ writes, i ≤ k := ih (hkeep hp) hnext (by omega)
        refine ⟨_, by rw [hrun]; rfl, fun i hi => ?_⟩
        obtain hi | hi := List.mem_append.mp hi
        · exact hw i hi
        · exact hbound i hi
      cases hp : parseLine buf text (lineEnd buf text) with
      | skip buf' => exact hgo (by rw [hp]; rfl)
      | header buf' sec' => exact hgo (by rw [hp]; rfl)
      | key buf' name value =>
        simp only
        split
        · exact ⟨_, rfl, hw⟩
        · exact hgo (by rw [hp]; rfl)
      | invalid => exact ⟨_, rfl, hw⟩

/-- The parse in place of a text anywhere in memory: the calls and the result that the grammar gives,
stores inside the text and its terminator, and an end after at most a turn for each byte. -/
theorem iniParse_in_place (h : σ → Entry → Int × σ) (text beyond : List Byte) (hz : 0 ∉ text)
    (ctx : σ) :
    iniParse text h ctx = outcome h text ctx ∧
      ∃ writes, iniTrace h (text.length + 1) (text ++ 0 :: beyond) 0 0 none ctx =
          some (writes, outcome h text ctx) ∧
        ∀ i ∈ writes, i ≤ text.length := by
  have hend : byteAt (text ++ 0 :: beyond) text.length = 0 := by
    have hdrop : (text ++ 0 :: beyond).drop 0 = text ++ 0 :: beyond := List.drop_zero
    have hb := byteAt_of_drop hdrop
    rwa [Nat.zero_add] at hb
  have hsec : InForce (text ++ 0 :: beyond) 0 noSection := by
    rw [InForce]
    rfl
  refine ⟨iniParse_outcome h text hz ctx, ?_⟩
  have heq : parseFrom h (text ++ 0 :: beyond) 0 0 none ctx = outcome h text ctx :=
    (parseFrom_eq h text hz List.drop_zero hsec).trans (grammar_outcome h _ 0 0 noSection ctx)
  obtain ⟨writes, hrun, hbound⟩ : ∃ writes,
      iniTrace h (text.length + 1) (text ++ 0 :: beyond) 0 0 none ctx =
        some (writes, parseFrom h (text ++ 0 :: beyond) 0 0 none ctx) ∧
      ∀ i ∈ writes, i ≤ text.length := iniTrace_spec h _ hend (Nat.zero_le _) (by omega)
  exact ⟨writes, by rw [hrun, heq], hbound⟩

def keepTwo (calls : List Entry) (e : Entry) : Int × List Entry :=
  (if calls.length = 1 then 7 else 0, calls ++ [e])

theorem iniParse_in_place_two_keys :
    0 ∉ ascii "[ a ]\n b = c\nd=e\n!" ∧
      iniParse (ascii "[ a ]\n b = c\nd=e\n!") keepTwo [] =
        outcome keepTwo (ascii "[ a ]\n b = c\nd=e\n!") [] :=
  ⟨by decide, (iniParse_in_place keepTwo _ [1, 2] (by decide) []).1⟩

end AipcOs.Ini
