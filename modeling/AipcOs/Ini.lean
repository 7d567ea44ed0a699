import AipcOs.IniGrammar

/-! aipc-boot/ini.c: ini_parse works in the text itself. Pointers are offsets into `buf`, the text
with its NUL. -/
namespace AipcOs.Ini
open ByteMemory HexText
variable {σ : Type*}

def byteAt (buf : List Byte) (i : Nat) : Byte := buf.getD i 0

/-- The first offset from `i` on with a NUL or a byte that `stop` takes. -/
def scan (stop : Byte → Bool) (buf : List Byte) (i : Nat) : Nat :=
  i + ((buf.drop i).takeWhile fun c => decide (c ≠ 0) && !stop c).length

def cstr (buf : List Byte) (p : Nat) : List Byte := (buf.drop p).takeWhile fun c => decide (c ≠ 0)

/-- The second loop of trim. -/
def backOver (buf : List Byte) (s : Nat) : Nat → Nat
  | 0 => 0
  | e + 1 => if s < e + 1 ∧ isEndBlank (byteAt buf e) then backOver buf s e else e + 1

def trim (buf : List Byte) (s fin : Nat) : List Byte × Nat :=
  let s := s + (((buf.drop s).take (fin - s)).takeWhile isBlank).length
  (buf.set (backOver buf s fin) 0, s)

inductive Parsed where
  | skip (buf : List Byte)
  | header (buf : List Byte) (sec : Nat)
  | key (buf : List Byte) (name value : Nat)
  | invalid

def parseHeader (buf : List Byte) (s : Nat) : Parsed :=
  let close := scan (fun c => c = chr ']') buf s
  if byteAt buf close ≠ chr ']' then .invalid
  else
    let (buf, sec) := trim buf (s + 1) close
    .header buf sec

def parseKey (buf : List Byte) (s : Nat) : Parsed :=
  let eq := scan (fun c => c = chr '=') buf s
  if byteAt buf eq ≠ chr '=' then .invalid
  else
    let buf := buf.set eq 0
    let (buf, name) := trim buf s eq
    let (buf, value) := trim buf (eq + 1) (scan (fun _ => false) buf (eq + 1))
    .key buf name value

def parseLine (buf : List Byte) (text fin : Nat) : Parsed :=
  let (buf, s) := trim buf text fin
  let c := byteAt buf s
  if c = 0 ∨ c = chr ';' ∨ c = chr '#' then .skip buf
  else if c = chr '[' then parseHeader buf s
  else parseKey buf s

def Parsed.buf? : Parsed → Option (List Byte)
  | .skip buf | .header buf _ | .key buf _ _ => some buf
  | .invalid => none

theorem trim_length (buf : List Byte) (s fin : Nat) : (trim buf s fin).1.length = buf.length := by
  simp [trim]

theorem parseHeader_length {buf buf' : List Byte} {s : Nat}
    (h : (parseHeader buf s).buf? = some buf') : buf'.length = buf.length := by
  unfold parseHeader at h
  simp only at h
  split at h
  · cases h
  · cases h
    exact trim_length _ _ _

theorem parseKey_length {buf buf' : List Byte} {s : Nat}
    (h : (parseKey buf s).buf? = some buf') : buf'.length = buf.length := by
  unfold parseKey at h
  simp only at h
  split at h
  · cases h
  · cases h
    rw [trim_length, trim_length, List.length_set]

theorem parseLine_length {buf buf' : List Byte} {text fin : Nat}
    (h : (parseLine buf text fin).buf? = some buf') : buf'.length = buf.length := by
  rw [← trim_length buf text fin]
  unfold parseLine at h
  simp only at h
  split at h
  · cases h
    rfl
  · split at h
    · exact parseHeader_length h
    · exact parseKey_length h

def lineEnd (buf : List Byte) (text : Nat) : Nat := scan (fun c => c = chr '\n') buf text

def nextLine (buf : List Byte) (text : Nat) : Nat :=
  if byteAt buf (lineEnd buf text) = 0 then lineEnd buf text else lineEnd buf text + 1

theorem nextLine_progress {buf : List Byte} {text : Nat} (h : byteAt buf text ≠ 0) :
    buf.length - nextLine buf text < buf.length - text := by
  have hlt : text < buf.length := by
    by_contra hge
    exact h (List.getD_eq_default _ _ (by omega))
  have hle : text ≤ lineEnd buf text := by simp [lineEnd, scan]
  unfold nextLine
  split
  · rename_i hz
    have hne : lineEnd buf text ≠ text := fun heq => h (heq ▸ hz)
    omega
  · omega

def parseFrom (h : σ → Entry → Int × σ) (buf : List Byte) (text line : Nat) (sec : Option Nat)
    (ctx : σ) : Int × σ :=
  if _hz : byteAt buf text = 0 then (0, ctx)
  else
    match hp : parseLine buf text (lineEnd buf text) with
    | .skip buf' => parseFrom h buf' (nextLine buf text) (line + 1) sec ctx
    | .header buf' sec' => parseFrom h buf' (nextLine buf text) (line + 1) (some sec') ctx
    | .key buf' name value =>
      let rc := h ctx ⟨sec, (sec.map (cstr buf')).getD [], cstr buf' name, cstr buf' value, line + 1⟩
      if rc.1 ≠ 0 then rc
      else parseFrom h buf' (nextLine buf text) (line + 1) sec rc.2
    | .invalid => (line + 1, ctx)
termination_by buf.length - text
decreasing_by
  all_goals
    have hbuf : (parseLine buf text (lineEnd buf text)).buf? = some buf' := by
      rw [hp]
      rfl
    have hlen := parseLine_length hbuf
    have hless := nextLine_progress _hz
    omega

def iniParse (text : List Byte) (h : σ → Entry → Int × σ) (ctx : σ) : Int × σ :=
  parseFrom h (text ++ [0]) 0 0 none ctx

theorem byteAt_of_drop {buf w tail : List Byte} {i : Nat} {c : Byte}
    (h : buf.drop i = w ++ c :: tail) : byteAt buf (i + w.length) = c := by
  rw [byteAt, List.getD_eq_getElem?_getD, ← List.getElem?_drop, h]
  simp

theorem scan_eq {stop : Byte → Bool} {buf w tail : List Byte} {i : Nat} {c : Byte}
    (h : buf.drop i = w ++ c :: tail) (hw : ∀ x ∈ w, x ≠ 0 ∧ stop x = false)
    (hc : c = 0 ∨ stop c = true) : scan stop buf i = i + w.length := by
  have hpass : ∀ x ∈ w, (decide (x ≠ 0) && !stop x) = true := by
    intro x hx
    rw [decide_eq_true (hw x hx).1, (hw x hx).2]
    rfl
  have hstop : (c :: tail).takeWhile (fun x => decide (x ≠ 0) && !stop x) = [] := by
    apply List.takeWhile_cons_of_neg
    obtain hc | hc := hc <;> simp [hc]
  rw [scan, h, List.takeWhile_append_of_pos hpass, hstop, List.append_nil]

theorem cstr_eq {buf s tail : List Byte} {p : Nat} (hs : 0 ∉ s) (h : buf.drop p = s ++ 0 :: tail) :
    cstr buf p = s := by
  have hpass : ∀ x ∈ s, decide (x ≠ 0) = true := by
    intro x hx
    apply decide_eq_true
    intro heq
    obtain rfl := heq
    exact hs hx
  rw [cstr, h, List.takeWhile_append_of_pos hpass, List.takeWhile_cons_of_neg (by simp),
    List.append_nil]

theorem backOver_eq {buf core trail rest : List Byte} {s : Nat}
    (h : buf.drop s = core ++ trail ++ rest) (htrail : ∀ c ∈ trail, isEndBlank c)
    (hcore : ∀ hne : core ≠ [], ¬ isEndBlank (core.getLast hne)) :
    backOver buf s (s + core.length + trail.length) = s + core.length := by
  induction trail using List.reverseRecOn generalizing rest with
  | nil =>
    rw [List.length_nil, Nat.add_zero]
    rw [List.append_nil] at h
    induction core using List.reverseRecOn with
    | nil =>
      cases s with
      | zero => rfl
      | succ s => simp [backOver]
    | append_singleton core c _ =>
      have hb : byteAt buf (s + core.length) = c := by
        rw [List.append_assoc] at h
        exact byteAt_of_drop h
      have hlast := hcore (by simp)
      rw [List.getLast_append_singleton] at hlast
      rw [List.length_append, List.length_singleton, ← Nat.add_assoc, backOver, hb,
        if_neg fun hand => hlast hand.2]
  | append_singleton trail c ih =>
    have h' : buf.drop s = core ++ trail ++ (c :: rest) := by simpa using h
    have hb : byteAt buf (s + core.length + trail.length) = c := by
      rw [Nat.add_assoc, ← List.length_append]
      exact byteAt_of_drop h'
    rw [List.length_append, List.length_singleton, ← Nat.add_assoc, backOver, hb,
      if_pos ⟨by omega, htrail c (by simp)⟩]
    exact ih h' fun x hx => htrail x (by simp [hx])

theorem drop_parts {buf w rest : List Byte} {s : Nat} (h : buf.drop s = w ++ rest) :
    ∃ trail, w.length = (lead w).length + (trimmed w).length + trail.length ∧
      (∀ c ∈ trail, isEndBlank c) ∧
      buf.drop (s + (lead w).length) = trimmed w ++ trail ++ rest := by
  obtain ⟨trail, hw, htrail⟩ := trimmed_parts w
  refine ⟨trail, ?_, htrail, ?_⟩
  · have hlen := congrArg List.length hw
    rwa [List.length_append, List.length_append] at hlen
  · rw [← List.drop_drop, h]
    nth_rewrite 2 [hw]
    rw [List.append_assoc, List.append_assoc, List.drop_left, List.append_assoc]

theorem trim_eq {buf w rest : List Byte} {s : Nat} (h : buf.drop s = w ++ rest) :
    trim buf s (s + w.length) =
      (buf.set (s + (lead w).length + (trimmed w).length) 0, s + (lead w).length) := by
  obtain ⟨trail, hlen, htrail, hdrop⟩ := drop_parts h
  have hstart : ((buf.drop s).take (s + w.length - s)).takeWhile isBlank = lead w := by
    rw [h, Nat.add_sub_cancel_left, List.take_left, lead]
  have hback := backOver_eq hdrop htrail (trimmed_last w)
  rw [trim]
  simp only [hstart]
  rw [show s + w.length = s + (lead w).length + (trimmed w).length + trail.length by omega, hback]

def StrAt (buf : List Byte) (p : Nat) (s : List Byte) : Prop := s ++ [0] <+: buf.drop p ∧ 0 ∉ s

theorem StrAt.cstr_eq {buf s : List Byte} {p : Nat} (h : StrAt buf p s) : cstr buf p = s := by
  obtain ⟨⟨t, ht⟩, hs⟩ := h
  apply Ini.cstr_eq hs
  rw [← ht, List.append_assoc]
  rfl

/-- A string stays when only bytes behind it change. -/
theorem StrAt.frame {buf buf' s : List Byte} {p m : Nat} (h : StrAt buf p s)
    (hm : p + s.length < m) (htake : buf'.take m = buf.take m) : StrAt buf' p s := by
  refine ⟨?_, h.2⟩
  have hpre : s ++ [0] <+: (buf.take m).drop p := by
    rw [List.drop_take]
    exact List.prefix_take_iff.mpr ⟨h.1, by simp; omega⟩
  rw [← htake] at hpre
  exact hpre.trans ((List.take_prefix m buf').drop p)

structure Touches (lo hi : Nat) (buf buf' : List Byte) : Prop where
  before : buf'.take lo = buf.take lo
  after : buf'.drop (hi + 1) = buf.drop (hi + 1)
  last : byteAt buf hi = 0 → byteAt buf' hi = 0

theorem Touches.refl (lo hi : Nat) (buf : List Byte) : Touches lo hi buf buf := ⟨rfl, rfl, id⟩

theorem Touches.set {lo hi i : Nat} {buf buf' : List Byte} (h : Touches lo hi buf buf')
    (hlo : lo ≤ i) (hhi : i ≤ hi) : Touches lo hi buf (buf'.set i 0) := by
  refine ⟨?_, ?_, ?_⟩
  · rw [List.take_set_of_le hlo, h.before]
  · rw [List.drop_set_of_lt (by omega), h.after]
  · intro hz
    have hold := h.last hz
    simp only [byteAt, List.getD_eq_getElem?_getD, List.getElem?_set] at hold ⊢
    split
    · split <;> rfl
    · exact hold

theorem trim_touches {buf buf' w rest : List Byte} {s lo hi : Nat} (h : buf'.drop s = w ++ rest)
    (ht : Touches lo hi buf buf') (hlo : lo ≤ s) (hhi : s + w.length ≤ hi) :
    Touches lo hi buf (trim buf' s (s + w.length)).1 := by
  have hfit := trimmed_fits w
  rw [trim_eq h]
  exact ht.set (by omega) (by omega)

theorem trim_strAt {buf w tail : List Byte} {s : Nat} {c : Byte} (h : buf.drop s = w ++ c :: tail)
    (hw : 0 ∉ w) : StrAt (trim buf s (s + w.length)).1 (s + (lead w).length) (trimmed w) := by
  obtain ⟨trail, -, -, hdrop⟩ := drop_parts h
  refine ⟨?_, fun hz => hw (mem_of_mem_trimmed hz)⟩
  rw [List.append_assoc] at hdrop
  rw [trim_eq h]
  simp only [List.drop_set, hdrop]
  rw [if_neg (by omega), Nat.add_sub_cancel_left, List.set_append_right _ _ (Nat.le_refl _),
    Nat.sub_self]
  cases trail with
  | nil => simp
  | cons x trail => simp

theorem StrAt.drop {buf s : List Byte} {p : Nat} (h : StrAt buf p s) :
    ∃ t, buf.drop p = s ++ 0 :: t := by
  obtain ⟨⟨t, ht⟩, -⟩ := h
  exact ⟨t, by rw [← ht, List.append_assoc]; rfl⟩

theorem StrAt.head {buf s : List Byte} {p : Nat} (h : StrAt buf p s) :
    byteAt buf p = s.headD 0 := by
  obtain ⟨t, ht⟩ := h.drop
  have hb : byteAt buf p = (buf.drop p).getD 0 0 := by
    simp [byteAt, List.getD_eq_getElem?_getD, List.getElem?_drop]
  rw [hb, ht]
  cases s <;> rfl

/-- A delimiter that the C string does not have: the scan ends at its NUL. -/
theorem scan_absent {buf s : List Byte} {p : Nat} {d : Byte} (h : StrAt buf p s) (hd : d ∉ s) :
    byteAt buf (scan (fun c => c = d) buf p) = 0 := by
  obtain ⟨t, ht⟩ := h.drop
  have hpass : ∀ x ∈ s, x ≠ 0 ∧ (decide (x = d)) = false := by
    intro x hx
    refine ⟨fun h0 => h.2 (h0 ▸ hx), decide_eq_false ?_⟩
    intro heq
    obtain rfl := heq
    exact hd hx
  rw [scan_eq ht hpass (.inl rfl)]
  exact byteAt_of_drop ht

/-- The scan for a delimiter that it has splits the string there. -/
theorem scan_present {buf s : List Byte} {p : Nat} {d : Byte} (h : StrAt buf p s) (hd : d ∈ s) :
    scan (fun c => c = d) buf p = p + (upTo d s).length ∧
      ∃ t, buf.drop p = upTo d s ++ d :: (past d s ++ 0 :: t) := by
  obtain ⟨t, ht⟩ := h.drop
  rw [split_at hd, List.append_assoc, List.cons_append] at ht
  have hpass : ∀ x ∈ upTo d s, x ≠ 0 ∧ (decide (x = d)) = false := by
    intro x hx
    refine ⟨fun h0 => h.2 (h0 ▸ (List.takeWhile_subset _) hx), decide_eq_false ?_⟩
    intro heq
    obtain rfl := heq
    exact not_mem_upTo x s hx
  refine ⟨scan_eq ht hpass (.inr (by simp)), t, ?_⟩
  rw [ht]

section Branches
variable {buf₀ buf : List Byte} {s lo hi : Nat}

theorem parseHeader_spec {xs : List Byte} (h : StrAt buf s (chr '[' :: xs)) (hd : chr ']' ∈ xs)
    (ht : Touches lo hi buf₀ buf) (hlo : lo ≤ s) (hhi : s + 1 + xs.length ≤ hi) :
    ∃ buf', parseHeader buf s = .header buf' (s + 1 + (lead (upTo (chr ']') xs)).length) ∧
      Touches lo hi buf₀ buf' ∧
      StrAt buf' (s + 1 + (lead (upTo (chr ']') xs)).length) (trimmed (upTo (chr ']') xs)) := by
  obtain ⟨hscan, t, hdrop⟩ := scan_present h (List.mem_cons_of_mem _ hd)
  have hup : upTo (chr ']') (chr '[' :: xs) = chr '[' :: upTo (chr ']') xs := rfl
  have hbyte := byteAt_of_drop hdrop
  rw [← hscan] at hbyte
  rw [hup] at hscan hdrop
  have hclose : scan (fun c => c = chr ']') buf s = s + 1 + (upTo (chr ']') xs).length := by
    rw [hscan, List.length_cons]
    omega
  rw [hclose] at hbyte
  have htail : buf.drop (s + 1) =
      upTo (chr ']') xs ++ chr ']' :: (past (chr ']') (chr '[' :: xs) ++ 0 :: t) := by
    rw [← List.drop_drop, hdrop, List.cons_append, List.drop_one, List.tail_cons]
  have hlen : (upTo (chr ']') xs).length ≤ xs.length := (List.takeWhile_prefix _).length_le
  have hz : 0 ∉ upTo (chr ']') xs := fun hz =>
    h.2 (List.mem_cons_of_mem _ ((List.takeWhile_subset _) hz))
  have hptr : (trim buf (s + 1) (s + 1 + (upTo (chr ']') xs).length)).2 =
      s + 1 + (lead (upTo (chr ']') xs)).length := by rw [trim_eq htail]
  refine ⟨_, ?_, trim_touches htail ht (by omega) (by omega), trim_strAt htail hz⟩
  unfold parseHeader
  simp only [hbyte, ne_eq, not_true_eq_false, if_false, hclose, hptr]

theorem parseKey_spec {core : List Byte} (h : StrAt buf s core) (hd : chr '=' ∈ core)
    (ht : Touches lo hi buf₀ buf) (hlo : lo ≤ s) (hhi : s + core.length ≤ hi) :
    ∃ buf' n v, parseKey buf s = .key buf' n v ∧ Touches lo hi buf₀ buf' ∧
      StrAt buf' n (trimmed (upTo (chr '=') core)) ∧
      StrAt buf' v (trimmed (past (chr '=') core)) := by
  obtain ⟨hscan, t, hdrop⟩ := scan_present h hd
  have hbyte := byteAt_of_drop hdrop
  have hlen : core.length = (upTo (chr '=') core).length + 1 + (past (chr '=') core).length := by
    have hlen := congrArg List.length (split_at hd)
    rw [List.length_append, List.length_cons] at hlen
    omega
  have hza : 0 ∉ upTo (chr '=') core := fun hz => h.2 ((List.takeWhile_subset _) hz)
  have hzb : 0 ∉ past (chr '=') core := by
    intro hz
    exact h.2 ((List.dropWhile_suffix _).subset (List.mem_of_mem_tail hz))
  unfold parseKey
  simp only [hscan, hbyte, ne_eq, not_true_eq_false, if_false]
  generalize upTo (chr '=') core = a at *
  generalize past (chr '=') core = b at *
  have hset : (buf.set (s + a.length) 0).drop s = a ++ 0 :: (b ++ 0 :: t) := by
    rw [List.drop_set, if_neg (by omega), Nat.add_sub_cancel_left, hdrop,
      List.set_append_right _ _ (Nat.le_refl _), Nat.sub_self, List.set_cons_zero]
  have ht1 := trim_touches hset (ht.set (i := s + a.length) (by omega) (by omega)) hlo (by omega)
  have hname := trim_strAt hset hza
  have hrest : (trim (buf.set (s + a.length) 0) s (s + a.length)).1.drop (s + a.length + 1) =
      b ++ 0 :: t := by
    have hfit := trimmed_fits a
    rw [trim_eq hset]
    simp only
    rw [List.drop_set_of_lt (by omega), Nat.add_assoc, ← List.drop_drop, hset, ← List.drop_drop,
      List.drop_left, List.drop_one, List.tail_cons]
  generalize (trim (buf.set (s + a.length) 0) s (s + a.length)).1 = buf1 at *
  have hstrlen : scan (fun _ => false) buf1 (s + a.length + 1) = s + a.length + 1 + b.length :=
    scan_eq hrest (fun x hx => ⟨fun h0 => hzb (h0 ▸ hx), rfl⟩) (.inl rfl)
  rw [hstrlen]
  refine ⟨_, _, _, rfl, trim_touches hrest ht1 (by omega) (by omega), ?_, ?_⟩
  · have hfit := trimmed_fits a
    rw [trim_eq hset]
    simp only
    refine hname.frame (m := s + a.length + 1) (by omega) ?_
    rw [trim_eq hrest]
    exact List.take_set_of_le (by omega)
  · rw [trim_eq hrest]
    simp only
    have hvalue := trim_strAt hrest hzb
    rwa [trim_eq hrest] at hvalue

end Branches

def Reads (buf : List Byte) (text : Nat) (w : List Byte) : Line → Parsed → Prop
  | .skip, .skip buf' => Touches text (text + w.length) buf buf'
  | .header name, .header buf' sec =>
    Touches text (text + w.length) buf buf' ∧ sec = text + nameOffset w ∧ StrAt buf' sec name ∧
      sec + name.length ≤ text + w.length
  | .key name value, .key buf' n v =>
    Touches text (text + w.length) buf buf' ∧ StrAt buf' n name ∧ StrAt buf' v value
  | .invalid, .invalid => True
  | _, _ => False

theorem parseLine_reads {buf w tail : List Byte} {text : Nat} {c : Byte}
    (h : buf.drop text = w ++ c :: tail) (hw : 0 ∉ w) :
    Reads buf text w (classify (trimmed w)) (parseLine buf text (text + w.length)) := by
  have hfit := trimmed_fits w
  have hstr := trim_strAt h hw
  have ht := trim_touches h (Touches.refl text (text + w.length) buf) (Nat.le_refl _) (Nat.le_refl _)
  have hs : (trim buf text (text + w.length)).2 = text + (lead w).length := by rw [trim_eq h]
  unfold parseLine
  simp only [hs]
  generalize (trim buf text (text + w.length)).1 = buf1 at hstr ht
  rw [hstr.head]
  cases hcore : trimmed w with
  | nil => exact ht
  | cons x xs =>
    rw [hcore] at hstr hfit
    rw [List.length_cons] at hfit
    have hx0 : x ≠ 0 := fun h0 => hstr.2 (h0 ▸ List.mem_cons_self)
    rw [List.headD_cons, classify]
    by_cases hcomment : x = chr ';' ∨ x = chr '#'
    · rw [if_pos hcomment, if_pos (Or.inr hcomment)]
      exact ht
    rw [if_neg hcomment, if_neg (not_or.mpr ⟨hx0, hcomment⟩)]
    by_cases hopen : x = chr '['
    · subst hopen
      rw [if_pos rfl, if_pos rfl]
      by_cases hd : chr ']' ∈ xs
      · obtain ⟨buf', hparse, ht', hname⟩ := parseHeader_spec hstr hd ht (by omega) (by omega)
        have hlen : (upTo (chr ']') xs).length ≤ xs.length := (List.takeWhile_prefix _).length_le
        have hfit' := trimmed_fits (upTo (chr ']') xs)
        have hoff : text + nameOffset w =
            text + (lead w).length + 1 + (lead (upTo (chr ']') xs)).length := by
          rw [nameOffset, hcore, List.tail_cons]
          omega
        rw [if_pos hd, hparse]
        exact ⟨ht', hoff.symm, hname, by omega⟩
      · have hbyte := scan_absent hstr (List.not_mem_cons_of_ne_of_not_mem (by decide) hd)
        unfold parseHeader
        simp only [hbyte]
        rw [if_neg hd, if_pos (by decide)]
        trivial
    · rw [if_neg hopen, if_neg hopen]
      by_cases hd : chr '=' ∈ x :: xs
      · obtain ⟨buf', n, v, hparse, ht', hname, hvalue⟩ :=
          parseKey_spec hstr hd ht (by omega) (by rw [List.length_cons]; omega)
        rw [if_pos hd, hparse]
        exact ⟨ht', hname, hvalue⟩
      · have hbyte := scan_absent hstr hd
        unfold parseKey
        simp only [hbyte]
        rw [if_neg hd, if_pos (by decide)]
        trivial

def InForce (buf : List Byte) (pos : Nat) (sec : Section) : Prop :=
  match sec.ptr with
  | none => sec.name = []
  | some p => StrAt buf p sec.name ∧ p + sec.name.length < pos

theorem InForce.read {buf : List Byte} {pos : Nat} {sec : Section} (h : InForce buf pos sec) :
    (sec.ptr.map (cstr buf)).getD [] = sec.name := by
  obtain ⟨ptr, name⟩ := sec
  cases ptr with
  | none => exact Eq.symm h
  | some p => exact h.1.cstr_eq

theorem InForce.frame {buf buf' : List Byte} {pos pos' hi : Nat} {sec : Section}
    (h : InForce buf pos sec) (ht : Touches pos hi buf buf') (hle : pos ≤ pos') :
    InForce buf' pos' sec := by
  obtain ⟨ptr, name⟩ := sec
  cases ptr with
  | none => exact h
  | some p => exact ⟨h.1.frame h.2 ht.before, Nat.lt_of_lt_of_le h.2 hle⟩

section Loop
variable (h : σ → Entry → Int × σ)

theorem lineEnd_eq {buf w tail : List Byte} {c : Byte} {pos : Nat}
    (hdrop : buf.drop pos = w ++ c :: tail) (hz : 0 ∉ w) (hnl : chr '\n' ∉ w)
    (hc : c = 0 ∨ c = chr '\n') : lineEnd buf pos = pos + w.length := by
  have hpass : ∀ x ∈ w, x ≠ 0 ∧ (decide (x = chr '\n')) = false := by
    intro x hx
    exact ⟨fun h0 => hz (h0 ▸ hx), decide_eq_false fun h0 => hnl (h0 ▸ hx)⟩
  apply scan_eq hdrop hpass
  obtain hc | hc := hc
  · exact .inl hc
  · exact .inr (decide_eq_true hc)

theorem nextLine_eq {buf w tail : List Byte} {c : Byte} {pos : Nat}
    (hdrop : buf.drop pos = w ++ c :: tail) (hz : 0 ∉ w) (hnl : chr '\n' ∉ w)
    (hc : c = 0 ∨ c = chr '\n') :
    nextLine buf pos = if c = 0 then pos + w.length else pos + w.length + 1 := by
  rw [nextLine, lineEnd_eq hdrop hz hnl hc, byteAt_of_drop hdrop]

/-- One turn of the loop, on the line `w`. -/
theorem parseFrom_line {buf w tail : List Byte} {c : Byte} {pos line : Nat} {sec : Section}
    {ctx : σ} {ls : List (List Byte)} (hdrop : buf.drop pos = w ++ c :: tail) (hz : 0 ∉ w)
    (hnl : chr '\n' ∉ w) (hc : c = 0 ∨ c = chr '\n') (hne : byteAt buf pos ≠ 0)
    (hsec : InForce buf pos sec)
    (hgo : ∀ buf' line' sec' ctx', Touches pos (pos + w.length) buf buf' →
      InForce buf' (pos + w.length + 1) sec' →
      parseFrom h buf' (nextLine buf pos) line' sec'.ptr ctx' =
        grammar h ls (pos + w.length + 1) line' sec' ctx') :
    parseFrom h buf pos line sec.ptr ctx = grammar h (w :: ls) pos line sec ctx := by
  have hreads := parseLine_reads hdrop hz
  rw [← lineEnd_eq hdrop hz hnl hc] at hreads
  rw [parseFrom, dif_neg hne, grammar]
  split
  · rename_i buf' hp
    rw [hp] at hreads
    cases hl : classify (trimmed w) <;> rw [hl] at hreads
    case skip =>
      rw [Reads] at hreads
      exact hgo _ _ _ _ hreads (hsec.frame hreads (by omega))
    all_goals exact hreads.elim
  · rename_i buf' p hp
    rw [hp] at hreads
    cases hl : classify (trimmed w) <;> rw [hl] at hreads
    case header name =>
      obtain ⟨ht, rfl, hname, hfit⟩ := hreads
      have hforce : InForce buf' (pos + w.length + 1) ⟨some (pos + nameOffset w), name⟩ :=
        ⟨hname, Nat.lt_succ_of_le hfit⟩
      exact hgo _ _ _ _ ht hforce
    all_goals exact hreads.elim
  · rename_i buf' n v hp
    rw [hp] at hreads
    cases hl : classify (trimmed w) <;> rw [hl] at hreads
    case key name value =>
      obtain ⟨ht, hname, hvalue⟩ := hreads
      have hsec' := hsec.frame ht (Nat.le_refl _)
      simp only [hsec'.read, hname.cstr_eq, hvalue.cstr_eq]
      split
      · rfl
      · exact hgo _ _ _ _ ht (hsec.frame ht (by omega))
    all_goals exact hreads.elim
  · rename_i hp
    rw [hp] at hreads
    cases hl : classify (trimmed w) <;> rw [hl] at hreads
    all_goals exact hreads.elim

/-- Whatever follows the text's NUL in memory. -/
theorem parseFrom_eq (rest : List Byte) (hz : 0 ∉ rest) {buf beyond : List Byte} {pos line : Nat}
    {sec : Section} {ctx : σ} (hdrop : buf.drop pos = rest ++ 0 :: beyond)
    (hsec : InForce buf pos sec) :
    parseFrom h buf pos line sec.ptr ctx = grammar h (linesOf rest) pos line sec ctx := by
  induction hn : rest.length using Nat.strong_induction_on generalizing rest buf pos line sec ctx with
  | _ n ih =>
    cases rest with
    | nil =>
      have hend : byteAt buf pos = 0 := by
        have hdrop' : buf.drop pos = [] ++ 0 :: beyond := hdrop
        exact byteAt_of_drop hdrop'
      rw [parseFrom, dif_pos hend]
      rfl
    | cons x xs =>
      have hne : byteAt buf pos ≠ 0 := by
        have hdrop' : buf.drop pos = [] ++ x :: (xs ++ 0 :: beyond) := hdrop
        have hx : byteAt buf pos = x := byteAt_of_drop hdrop'
        rw [hx]
        intro heq
        obtain rfl := heq
        exact hz List.mem_cons_self
      by_cases hnl : chr '\n' ∈ x :: xs
      · have hsplit := split_at hnl
        have hup := not_mem_upTo (chr '\n') (x :: xs)
        generalize upTo (chr '\n') (x :: xs) = w at hsplit hup
        generalize past (chr '\n') (x :: xs) = rest' at hsplit
        rw [hsplit] at hdrop hz hn ⊢
        rw [List.append_assoc, List.cons_append] at hdrop
        rw [List.mem_append, not_or, List.mem_cons, not_or] at hz
        rw [List.length_append, List.length_cons] at hn
        rw [linesOf_cons hup]
        refine parseFrom_line h hdrop hz.1 hup (.inr rfl) hne hsec ?_
        intro buf' line' sec' ctx' ht hsec'
        rw [nextLine_eq hdrop hz.1 hup (.inr rfl), if_neg (by decide)]
        refine ih rest'.length (by omega) rest' hz.2.2 ?_ hsec' rfl
        rw [ht.after, Nat.add_assoc, ← List.drop_drop, hdrop, ← List.drop_drop, List.drop_left]
        rfl
      · rw [linesOf_last hnl (List.cons_ne_nil _ _)]
        refine parseFrom_line h hdrop hz hnl (.inl rfl) hne hsec ?_
        intro buf' line' sec' ctx' ht hsec'
        rw [nextLine_eq hdrop hz hnl (.inl rfl), if_pos rfl, parseFrom,
          dif_pos (ht.last (byteAt_of_drop hdrop))]
        rfl

/-- The parse in place is the grammar. -/
theorem iniParse_eq (text : List Byte) (hz : 0 ∉ text) (ctx : σ) :
    iniParse text h ctx = grammar h (linesOf text) 0 0 noSection ctx := by
  have hsec : InForce (text ++ [0]) 0 noSection := by
    rw [InForce]
    rfl
  exact parseFrom_eq h text hz List.drop_zero hsec

theorem iniParse_outcome (text : List Byte) (hz : 0 ∉ text) (ctx : σ) :
    iniParse text h ctx = outcome h text ctx :=
  (iniParse_eq h text hz ctx).trans (grammar_outcome h _ 0 0 noSection ctx)

end Loop

/-- What every key keeps, the parse keeps. -/
theorem parseFrom_invariant {P : σ → Prop} (h : σ → Entry → Int × σ)
    (hkey : ∀ s e, P s → P (h s e).2) {buf : List Byte} {text line : Nat} {sec : Option Nat}
    {ctx : σ} (hctx : P ctx) : P (parseFrom h buf text line sec ctx).2 := by
  fun_induction parseFrom h buf text line sec ctx with
  | case1 => exact hctx
  | case2 _ _ _ _ _ _ _ _ ih => exact ih hctx
  | case3 _ _ _ _ _ _ _ _ _ ih => exact ih hctx
  | case4 => exact hkey _ _ hctx
  | case5 _ _ _ _ _ _ _ _ _ _ _ _ ih => exact ih (hkey _ _ hctx)
  | case6 => exact hctx

theorem iniParse_invariant {P : σ → Prop} (h : σ → Entry → Int × σ)
    (hkey : ∀ s e, P s → P (h s e).2) (text : List Byte) {ctx : σ} (hctx : P ctx) :
    P (iniParse text h ctx).2 :=
  parseFrom_invariant h hkey hctx

end AipcOs.Ini
