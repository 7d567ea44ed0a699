import AipcOs.Settings

/-! What is left of the table of settings after settings_save and a further settings_load: the
text of the table, its parse, and the lookups. -/
namespace AipcOs.Settings
open ByteMemory HexText Ini Storage LvglText

def keyLine (k : Key) : List Byte := k.name ++ chr '=' :: k.value

def headerLine (sect : List Byte) : List Byte := chr '[' :: (sect ++ [chr ']'])

def savedLines (before : Table) : Table → List (List Byte)
  | [] => []
  | k :: ks =>
    if seen before k.sect then savedLines (before ++ [k]) ks
    else
      (if k.sect ≠ [] then [headerLine k.sect] else []) ++
        ((k :: ks).filter fun j => j.sect = k.sect).map keyLine ++ savedLines (before ++ [k]) ks

def unlines (ls : List (List Byte)) : List Byte := ls.flatMap (· ++ [chr '\n'])

theorem unlines_append (xs ys : List (List Byte)) :
    unlines (xs ++ ys) = unlines xs ++ unlines ys := List.flatMap_append

theorem shown_keyFormat (k : Key) : shown (keyFormat k) = keyLine k ++ [chr '\n'] := by
  have hshown : shown (keyFormat k) = k.name ++ (chr '=' :: (k.value ++ [chr '\n'])) := rfl
  rw [hshown, keyLine, List.append_assoc, List.cons_append]

theorem shown_headerFormat (sect : List Byte) :
    shown (headerFormat sect) = headerLine sect ++ [chr '\n'] := by
  have hshown : shown (headerFormat sect) = chr '[' :: (sect ++ [chr ']', chr '\n']) := rfl
  rw [hshown, headerLine, List.cons_append, List.append_assoc, List.singleton_append]

theorem room_eq {len : Nat} (h : len ≤ TEXT_MAX) : room len = TEXT_MAX - len := by
  unfold room TEXT_MAX at *
  rw [BitVec.toNat_sub, BitVec.toNat_ofNat, BitVec.toNat_ofNat]
  omega

theorem Text.print_len [Lvgl] (out : Text) (format : List Piece) :
    (out.print format).len = out.len + (shown format).length := by
  rw [Text.print, Lvgl.snprintf_counts]

/-- As long as it fits, the buffer holds `text`. -/
def Text.Has (out : Text) (text : List Byte) : Prop :=
  out.len < TEXT_MAX → out.bytes = text ∧ out.len = text.length

theorem Text.Has.print [Lvgl] {out : Text} {text : List Byte} (h : out.Has text) (format : List Piece) :
    (out.print format).Has (text ++ shown format) := by
  intro hlen
  rw [Text.print_len] at hlen
  obtain ⟨hbytes, htext⟩ := h (by omega)
  have hfits : (shown format).length < room out.len := by
    rw [room_eq (by omega)]
    omega
  refine ⟨?_, ?_⟩
  · rw [Text.print, hbytes, lvSnprintf_fits hfits]
  · rw [Text.print_len, List.length_append, htext]

theorem saveGroup_has [Lvgl] (sect : List Byte) (ks : Table) {out : Text} {text : List Byte}
    (h : out.Has text) :
    (saveGroup sect ks out).Has
      (text ++ unlines ((ks.filter fun j => j.sect = sect).map keyLine)) := by
  induction ks generalizing out text with
  | nil =>
    rw [saveGroup]
    simpa [unlines] using h
  | cons k ks ih =>
    rw [saveGroup]
    by_cases hfull : TEXT_MAX ≤ out.len
    · rw [if_pos hfull]
      exact fun hlt => absurd hlt (by omega)
    · rw [if_neg hfull]
      by_cases hk : k.sect = sect
      · rw [if_pos hk, List.filter_cons_of_pos (by simpa using hk), List.map_cons]
        have hline := ih (h.print (keyFormat k))
        rwa [List.append_assoc, shown_keyFormat] at hline
      · rw [if_neg hk, List.filter_cons_of_neg (by simpa using hk)]
        exact ih h

theorem saveFrom_text [Lvgl] {before ks : Table} {out out' : Text} {text : List Byte}
    (hout : out.len < TEXT_MAX) (h : out.Has text) (hsave : saveFrom before ks out = .ok out') :
    out'.bytes = text ++ unlines (savedLines before ks) ∧ out'.bytes.length < TEXT_MAX := by
  induction ks generalizing before out text with
  | nil =>
    cases hsave
    obtain ⟨hbytes, hlen⟩ := h hout
    rw [hbytes, ← hlen]
    exact ⟨(List.append_nil _).symm, hout⟩
  | cons k ks ih =>
    rw [saveFrom] at hsave
    rw [savedLines]
    by_cases hseen : seen before k.sect
    · rw [if_pos hseen] at hsave ⊢
      exact ih hout h hsave
    · rw [if_neg hseen] at hsave ⊢
      have hhead : (if k.sect ≠ [] then out.print (headerFormat k.sect) else out).Has
          (text ++ unlines (if k.sect ≠ [] then [headerLine k.sect] else [])) := by
        split
        · have hline := h.print (headerFormat k.sect)
          rw [shown_headerFormat] at hline
          simpa [unlines] using hline
        · simpa [unlines] using h
      simp only at hsave
      generalize (if k.sect ≠ [] then out.print (headerFormat k.sect) else out) = out1
        at hsave hhead
      have hgroup := saveGroup_has k.sect (k :: ks) hhead
      by_cases hfull : TEXT_MAX ≤ (saveGroup k.sect (k :: ks) out1).len
      · rw [if_pos hfull] at hsave
        cases hsave
      · rw [if_neg hfull] at hsave
        obtain ⟨hbytes, hlen⟩ := ih (by omega) hgroup hsave
        refine ⟨?_, hlen⟩
        rw [hbytes, unlines_append, unlines_append, List.append_assoc, List.append_assoc,
          List.append_assoc]

theorem classify_headerLine {sect : List Byte} (h : SectText sect) :
    classify (trimmed (headerLine sect)) = .header (trimEnd sect) := by
  have hcore : trimmed (headerLine sect) = headerLine sect := by
    rw [trimmed_of_inline (by intro c hsame; cases hsame; decide), headerLine, ← List.cons_append,
      trimEnd_append _ (by decide)]
    rfl
  rw [hcore, headerLine, classify, if_neg (by decide), if_pos rfl, if_pos (by simp),
    upTo_append h.2, trimmed_of_inline h.1.2.2]

theorem classify_keyLine {k : Key} (h : k.Sound) :
    classify (trimmed (keyLine k)) = .key (trimEnd k.name) (trimEnd k.value) := by
  have hname : NameText k.name := h.name
  have hcore : trimmed (keyLine k) = k.name ++ chr '=' :: trimEnd k.value := by
    rw [keyLine, trimmed_of_inline, trimEnd_append _ (by decide)]
    intro c hc
    cases hk : k.name with
    | nil =>
      rw [hk] at hc
      cases hc
      decide
    | cons x xs =>
      rw [hk] at hc hname
      exact hname.1.2.2 c hc
  have hup := upTo_append hname.2.1 (trimEnd k.value)
  have hpast := past_append hname.2.1 (trimEnd k.value)
  have hvalue : trimmed (trimEnd k.value) = trimEnd k.value := by
    rw [trimmed_of_inline (h.value.of_isPrefix (trimEnd_isPrefix _)).2.2, trimEnd_idempotent]
  have hkey : Line.key (trimmed (upTo (chr '=') (k.name ++ chr '=' :: trimEnd k.value)))
      (trimmed (past (chr '=') (k.name ++ chr '=' :: trimEnd k.value))) =
      .key (trimEnd k.name) (trimEnd k.value) := by
    rw [hup, hpast, hvalue, trimmed_of_inline hname.1.2.2]
  rw [hcore, ← hkey]
  cases hk : k.name with
  | nil =>
    rw [List.nil_append, classify, if_neg (by decide), if_neg (by decide),
      if_pos List.mem_cons_self]
  | cons x xs =>
    rw [hk] at hname
    obtain ⟨h1, h2, h3⟩ := hname.2.2 x rfl
    rw [List.cons_append, classify, if_neg (by simp [h1, h2]), if_neg h3, if_pos (by simp)]

def keysFrom : List (List Byte) → List Byte → List Key
  | [], _ => []
  | l :: ls, sect =>
    match classify (trimmed l) with
    | .skip => keysFrom ls sect
    | .header name => keysFrom ls name
    | .key name value => ⟨sect, name, value⟩ :: keysFrom ls sect
    | .invalid => []

def put [Lvgl] (t : Table) (k : Key) : Table := set t k.sect k.name (some k.value)

theorem foldl_entries [Lvgl] (ls : List (List Byte)) (pos line : Nat) (sec : Section) (t : Table) :
    (entriesFrom ls pos line sec).foldl (fun t e => (onKey t e).2) t =
      (keysFrom ls sec.name).foldl put t := by
  induction ls generalizing pos line sec t with
  | nil => rfl
  | cons l ls ih =>
    rw [entriesFrom, keysFrom]
    cases classify (trimmed l) with
    | skip => exact ih _ _ _ _
    | header name => exact ih _ _ _ _
    | key name value => exact ih _ _ _ _
    | invalid => rfl

def sectAfter (cur : List Byte) (k : Key) : List Byte := if k.sect ≠ [] then trimEnd k.sect else cur

def reloaded (cur : List Byte) (before : Table) : Table → List Key
  | [] => []
  | k :: ks =>
    if seen before k.sect then reloaded cur (before ++ [k]) ks
    else
      ((k :: ks).filter fun j => j.sect = k.sect).map
          (fun j => ⟨sectAfter cur k, trimEnd j.name, trimEnd j.value⟩) ++
        reloaded (sectAfter cur k) (before ++ [k]) ks

theorem keysFrom_group {ks : Table} (hks : ∀ k ∈ ks, k.Sound) (rest : List (List Byte))
    (sect : List Byte) :
    keysFrom (ks.map keyLine ++ rest) sect =
      ks.map (fun j => ⟨sect, trimEnd j.name, trimEnd j.value⟩) ++ keysFrom rest sect := by
  induction ks with
  | nil => rfl
  | cons k ks ih =>
    have hk := classify_keyLine (hks k List.mem_cons_self)
    have hks : ∀ j ∈ ks, j.Sound := fun j hj => hks j (List.mem_cons_of_mem _ hj)
    rw [List.map_cons, List.cons_append, keysFrom, hk]
    simp only [List.map_cons, List.cons_append, ih hks]

theorem keysFrom_saved {before ks : Table} (hks : ∀ k ∈ ks, k.Sound) (cur : List Byte) :
    keysFrom (savedLines before ks) cur = reloaded cur before ks := by
  induction ks generalizing before cur with
  | nil => rfl
  | cons k ks ih =>
    have htail : ∀ j ∈ ks, j.Sound := fun j hj => hks j (List.mem_cons_of_mem _ hj)
    have hgroup : ∀ j ∈ (k :: ks).filter fun j => j.sect = k.sect, j.Sound :=
      fun j hj => hks j (List.mem_of_mem_filter hj)
    have hhead := classify_headerLine (hks k List.mem_cons_self).sect
    rw [savedLines, reloaded]
    by_cases hseen : seen before k.sect
    · rw [if_pos hseen, if_pos hseen, ih htail]
    · rw [if_neg hseen, if_neg hseen, sectAfter]
      by_cases hsect : k.sect = []
      · rw [if_neg (by simp [hsect]), if_neg (by simp [hsect]), List.nil_append,
          keysFrom_group hgroup, ih htail]
      · rw [if_pos hsect, if_pos hsect, List.append_assoc, List.singleton_append, keysFrom, hhead]
        simp only
        rw [keysFrom_group hgroup, ih htail]

theorem Key.is_iff {k : Key} {s n : List Byte} : k.is s n ↔ k.sect = s ∧ k.name = n := by
  rw [Key.is, decide_eq_true_eq]

theorem get_cons (k : Key) (ks : Table) (s n : List Byte) :
    get (k :: ks) s n = if k.is s n then some k.value else get ks s n := by
  rw [get, find, List.find?_cons]
  cases k.is s n <;> rfl

theorem get_overwrite [Lvgl] (sect name value : List Byte) (t : Table) (s n : List Byte) :
    get (overwrite sect name value t) s n =
      if sect = s ∧ name = n then (get t s n).map fun _ => lvStrlcpy 96 value else get t s n := by
  induction t with
  | nil => simp [overwrite, get, find]
  | cons k ks ih =>
    rw [overwrite]
    by_cases hk : k.is sect name
    · obtain ⟨rfl, rfl⟩ := Key.is_iff.mp hk
      rw [if_pos hk, get_cons, get_cons]
      have hsame : Key.is s n { k with value := lvStrlcpy 96 value } = k.is s n := rfl
      rw [hsame]
      by_cases hs : k.sect = s ∧ k.name = n
      · rw [if_pos (Key.is_iff.mpr hs), if_pos (Key.is_iff.mpr hs), if_pos hs]
        rfl
      · have hnot : ¬ k.is s n := fun h => hs (Key.is_iff.mp h)
        rw [if_neg hnot, if_neg hnot, if_neg hs]
    · rw [if_neg hk, get_cons, get_cons, ih]
      by_cases hs : sect = s ∧ name = n
      · obtain ⟨rfl, rfl⟩ := hs
        rw [if_neg hk, if_neg hk]
      · rw [if_neg hs, if_neg hs]

theorem get_append (t u : Table) (s n : List Byte) :
    get (t ++ u) s n = (get t s n).or (get u s n) := by
  rw [get, find, List.find?_append, Option.map_or]
  rfl

theorem get_isSome {t : Table} {s n : List Byte} : (find t s n).isSome = (get t s n).isSome := by
  rw [get, Option.isSome_map]

theorem get_put [Lvgl] {t : Table} {k : Key} (hk : k.Sound) (hroom : t.length < KEYS_MAX)
    (s n : List Byte) : get (put t k) s n = if k.is s n then some k.value else get t s n := by
  obtain ⟨hsect, hname, hvalue⟩ := hk.copied
  rw [put, set]
  by_cases hold : (find t k.sect k.name).isSome
  · rw [if_pos hold, get_overwrite, hvalue]
    by_cases hs : k.sect = s ∧ k.name = n
    · rw [get_isSome] at hold
      obtain ⟨v, hv⟩ := Option.isSome_iff_exists.mp hold
      obtain ⟨rfl, rfl⟩ := hs
      rw [if_pos ⟨rfl, rfl⟩, if_pos (Key.is_iff.mpr ⟨rfl, rfl⟩), hv]
      rfl
    · rw [if_neg hs, if_neg fun h => hs (Key.is_iff.mp h)]
  · rw [if_neg hold, if_neg (by omega), hsect, hname, hvalue, get_append, get_cons]
    by_cases hs : k.is s n
    · obtain ⟨rfl, rfl⟩ := Key.is_iff.mp hs
      rw [get_isSome, Option.not_isSome_iff_eq_none] at hold
      rw [if_pos hs, if_pos hs, hold]
      rfl
    · rw [if_neg hs, if_neg hs]
      exact Option.or_none

theorem put_length [Lvgl] (t : Table) (k : Key) : (put t k).length ≤ t.length + 1 := by
  rw [put, set]
  split
  · rw [overwrite_length]
    omega
  · split
    · omega
    · simp

/-- A later key of the same name wins. -/
theorem get_puts [Lvgl] {es : List Key} (hes : ∀ k ∈ es, k.Sound) {t : Table}
    (hroom : t.length + es.length ≤ KEYS_MAX) (s n : List Byte) :
    get (es.foldl put t) s n = (get es.reverse s n).or (get t s n) := by
  induction es generalizing t with
  | nil => rfl
  | cons e es ih =>
    rw [List.length_cons] at hroom
    have hlen := put_length t e
    have hes' : ∀ k ∈ es, k.Sound := fun k hk => hes k (List.mem_cons_of_mem _ hk)
    have hput := get_put (hes e List.mem_cons_self) (t := t) (by omega) s n
    rw [List.foldl_cons, ih hes' (by omega), hput, List.reverse_cons, get_append, get_cons,
      Option.or_assoc]
    by_cases he : e.is s n
    · rw [if_pos he, if_pos he]
      rfl
    · rw [if_neg he, if_neg he]
      rfl

theorem mem_reloaded {cur : List Byte} {before ks : Table} {r : Key}
    (h : r ∈ reloaded cur before ks) :
    (∃ k ∈ ks, r.name = trimEnd k.name ∧ r.value = trimEnd k.value) ∧
      (r.sect = cur ∨ ∃ k ∈ ks, k.sect ≠ [] ∧ r.sect = trimEnd k.sect) := by
  induction ks generalizing cur before with
  | nil => cases h
  | cons k ks ih =>
    rw [reloaded] at h
    by_cases hseen : seen before k.sect
    · rw [if_pos hseen] at h
      obtain ⟨⟨j, hj, hr⟩, hsect⟩ := ih h
      refine ⟨⟨j, List.mem_cons_of_mem _ hj, hr⟩, hsect.imp_right ?_⟩
      intro hex
      obtain ⟨j, hj, hr⟩ := hex
      exact ⟨j, List.mem_cons_of_mem _ hj, hr⟩
    rw [if_neg hseen] at h
    have hafter : sectAfter cur k = cur ∨
        ∃ j ∈ k :: ks, j.sect ≠ [] ∧ sectAfter cur k = trimEnd j.sect := by
      rw [sectAfter]
      split
      · rename_i hsect
        exact .inr ⟨k, List.mem_cons_self, hsect, rfl⟩
      · exact .inl rfl
    obtain h | h := List.mem_append.mp h
    · obtain ⟨j, hj, rfl⟩ := List.mem_map.mp h
      exact ⟨⟨j, List.mem_of_mem_filter hj, rfl, rfl⟩, hafter⟩
    · obtain ⟨⟨j, hj, hr⟩, hsect⟩ := ih h
      refine ⟨⟨j, List.mem_cons_of_mem _ hj, hr⟩, ?_⟩
      obtain hsect | ⟨j, hj, hr⟩ := hsect
      · rwa [hsect]
      · exact .inr ⟨j, List.mem_cons_of_mem _ hj, hr⟩

theorem reloaded_sound {ks : Table} (hks : ∀ k ∈ ks, k.Sound) :
    ∀ r ∈ reloaded [] [] ks, r.Sound := by
  intro r hr
  obtain ⟨⟨k, hk, hname, hvalue⟩, hsect⟩ := mem_reloaded hr
  have hfit : ∀ s, (trimEnd s).length ≤ s.length := fun s => (trimEnd_isPrefix s).length_le
  have hsect : SectText r.sect ∧ r.sect.length ≤ 23 := by
    obtain hsect | ⟨j, hj, -, hsect⟩ := hsect
    · rw [hsect]
      decide
    · rw [hsect]
      exact ⟨(hks j hj).sect.of_isPrefix (trimEnd_isPrefix _),
        Nat.le_trans (hfit _) (hks j hj).sect_fits⟩
  refine ⟨hsect.1, ?_, ?_, hsect.2, ?_, ?_⟩
  · rw [hname]
    exact (hks k hk).name.of_isPrefix (trimEnd_isPrefix _)
  · rw [hvalue]
    exact (hks k hk).value.of_isPrefix (trimEnd_isPrefix _)
  · rw [hname]
    exact Nat.le_trans (hfit _) (hks k hk).name_fits
  · rw [hvalue]
    exact Nat.le_trans (hfit _) (hks k hk).value_fits

theorem seen_snoc (before : Table) (k : Key) (s : List Byte) :
    seen (before ++ [k]) s = (seen before s || k.sect = s) := by
  rw [seen, List.any_append, List.any_cons, List.any_nil, Bool.or_false, seen]

theorem reloaded_length (cur : List Byte) (before ks : Table) :
    (reloaded cur before ks).length =
      (ks.filter fun k => !seen before k.sect).length := by
  induction ks generalizing cur before with
  | nil => rfl
  | cons k ks ih =>
    rw [reloaded]
    by_cases hseen : seen before k.sect
    · rw [if_pos hseen, ih, List.filter_cons_of_neg (by rw [hseen]; decide)]
      congr 1
      apply List.filter_congr
      intro j _
      rw [seen_snoc]
      by_cases hj : k.sect = j.sect
      · rw [← hj, hseen]
        rfl
      · simp [hj]
    · have hsplit := List.length_eq_length_filter_add
        (l := (k :: ks).filter fun i => !seen before i.sect)
        fun j => decide (j.sect = k.sect)
      rw [if_neg hseen, List.length_append, List.length_map, ih, hsplit, List.filter_filter,
        List.filter_filter]
      rw [Bool.not_eq_true] at hseen
      congr 2
      · apply List.filter_congr
        intro j _
        by_cases hj : j.sect = k.sect
        · simp [hj, hseen]
        · simp [hj]
      · rw [List.filter_cons_of_neg (by simp)]
        apply List.filter_congr
        intro j _
        rw [seen_snoc, Bool.not_or, Bool.and_comm]
        simp only [eq_comm]

def reread (k : Key) : Key := ⟨k.sect, trimEnd k.name, trimEnd k.value⟩

theorem group_reread (sect : List Byte) (ks : Table) :
    (ks.filter fun j => j.sect = sect).map (fun j => ⟨sect, trimEnd j.name, trimEnd j.value⟩) =
      (ks.filter fun j => j.sect = sect).map reread := by
  apply List.map_congr_left
  intro j hj
  have hj := List.of_mem_filter hj
  rw [decide_eq_true_eq] at hj
  rw [reread, hj]

/-- The section behind the line of the first key of a group. -/
theorem sectAfter_first {cur : List Byte} {before ks : Table} {k : Key}
    (hends : trimEnd k.sect = k.sect) (hseen : ¬seen before k.sect = true)
    (hhead : (∀ j ∈ k :: ks, j.sect = [] → seen before []) ∨
      (cur = [] ∧ (k :: ks).head?.map Key.sect = some [])) : sectAfter cur k = k.sect := by
  rw [sectAfter]
  by_cases hk : k.sect = []
  · rw [if_neg (by simp [hk])]
    obtain hleft | ⟨hcur, -⟩ := hhead
    · have hold := hleft k List.mem_cons_self hk
      rw [← hk] at hold
      exact absurd hold hseen
    · rw [hcur, hk]
  · rw [if_pos hk]
    exact hends

/-- A group holds no key of another section. -/
theorem filter_group_other {ks : Table} {sect s : List Byte} (h : sect ≠ s) :
    ks.filter (fun j => ((fun r : Key => decide (r.sect = s)) ∘ reread) j &&
      decide (j.sect = sect)) = [] := by
  apply List.filter_eq_nil_iff.mpr
  intro j _ hj
  rw [Bool.and_eq_true, decide_eq_true_eq] at hj
  have hj1 : j.sect = s := of_decide_eq_true hj.1
  exact h (hj.2.symm.trans hj1)

/-- Group by group, the text keeps the keys of a section and their order. -/
theorem reloaded_filter {cur : List Byte} {before ks : Table}
    (hends : ∀ k ∈ ks, trimEnd k.sect = k.sect)
    (hhead : (∀ k ∈ ks, k.sect = [] → seen before []) ∨
      (cur = [] ∧ ks.head?.map Key.sect = some [])) (s : List Byte) :
    (reloaded cur before ks).filter (fun r => r.sect = s) =
      if seen before s then []
      else (ks.filter fun j => j.sect = s).map reread := by
  induction ks generalizing cur before with
  | nil => simp [reloaded]
  | cons k ks ih =>
    have hrest : ∀ j ∈ ks, j.sect = [] → seen (before ++ [k]) [] := by
      intro j hj hempty
      rw [seen_snoc]
      obtain hleft | ⟨-, hk⟩ := hhead
      · rw [hleft j (List.mem_cons_of_mem _ hj) hempty]
        rfl
      · have hk : k.sect = [] := by simpa using hk
        simp [hk]
    have ih := fun cur => @ih cur (before ++ [k]) (fun j hj => hends j (List.mem_cons_of_mem _ hj))
      (.inl hrest)
    rw [reloaded]
    by_cases hseen : seen before k.sect
    · rw [if_pos hseen, ih, seen_snoc]
      by_cases hs : k.sect = s
      · rw [← hs, hseen]
        rfl
      · simp [hs]
    · have hafter := sectAfter_first (hends k List.mem_cons_self) hseen hhead
      rw [if_neg hseen, hafter, group_reread, List.filter_append, ih, seen_snoc, List.filter_map,
        List.filter_filter]
      by_cases hs : k.sect = s
      · subst hs
        rw [if_pos (by simp), if_neg hseen, List.append_nil]
        congr 1
        apply List.filter_congr
        intro j _
        exact Bool.and_self _
      · rw [filter_group_other hs, List.filter_cons_of_neg (by simpa using hs)]
        simp [hs]

/-- When the saved text gives back every lookup. -/
structure Faithful (t : Table) : Prop where
  headless : ∀ k ∈ t, k.sect = [] → t.head?.map Key.sect = some []
  ends : ∀ k ∈ t, trimEnd k.sect = k.sect ∧ trimEnd k.name = k.name
  agree : ∀ k ∈ t, (get t.reverse k.sect k.name).map trimEnd = get t k.sect k.name

theorem get_reverse_filter (t : Table) (s n : List Byte) :
    get t.reverse s n =
      (((t.filter fun k => k.sect = s).filter fun k => k.name = n).reverse.head?).map Key.value := by
  have his : Key.is s n = fun k => decide (k.name = n) && decide (k.sect = s) := by
    funext k
    rw [Key.is, Bool.decide_and, Bool.and_comm]
  rw [get, find, ← List.head?_filter, List.filter_reverse, List.filter_filter, his]

theorem get_reloaded {t : Table}
    (hhead : ∀ k ∈ t, k.sect = [] → t.head?.map Key.sect = some [])
    (hends : ∀ k ∈ t, trimEnd k.sect = k.sect ∧ trimEnd k.name = k.name) (s n : List Byte) :
    get (reloaded [] [] t).reverse s n = (get t.reverse s n).map trimEnd := by
  have hstart : (∀ k ∈ t, k.sect = [] → seen [] []) ∨
      (([] : List Byte) = [] ∧ t.head?.map Key.sect = some []) := by
    by_cases hempty : ∃ k ∈ t, k.sect = []
    · obtain ⟨k, hk, hsect⟩ := hempty
      exact .inr ⟨rfl, hhead k hk hsect⟩
    · exact .inl fun k hk hsect => absurd ⟨k, hk, hsect⟩ hempty
  have hfilter := reloaded_filter (fun k hk => (hends k hk).1) hstart s
  have hread : (t.map reread).filter (fun r => r.sect = s) =
      (t.filter fun j => j.sect = s).map reread := List.filter_map
  have hsame : ∀ k ∈ t.reverse, (Key.is s n ∘ reread) k = Key.is s n k := by
    intro k hk
    rw [Function.comp, reread, Key.is, Key.is, (hends k (List.mem_reverse.mp hk)).2]
  have hfind : ∀ l : Table, (∀ k ∈ l, (Key.is s n ∘ reread) k = Key.is s n k) →
      l.find? (Key.is s n ∘ reread) = l.find? (Key.is s n) := by
    intro l hl
    rw [← List.head?_filter, ← List.head?_filter, List.filter_congr hl]
  rw [if_neg (by simp [seen]), ← hread] at hfilter
  rw [get_reverse_filter, hfilter, ← get_reverse_filter, ← List.map_reverse, get, find,
    List.find?_map, hfind _ hsame, get, find, Option.map_map, Option.map_map]
  rfl

theorem mem_savedLines {before ks : Table} {l : List Byte} (h : l ∈ savedLines before ks) :
    ∃ k ∈ ks, l = headerLine k.sect ∨ l = keyLine k := by
  induction ks generalizing before with
  | nil => cases h
  | cons k ks ih =>
    have hrest : l ∈ savedLines (before ++ [k]) ks →
        ∃ j ∈ k :: ks, l = headerLine j.sect ∨ l = keyLine j := by
      intro h
      obtain ⟨j, hj, hl⟩ := ih h
      exact ⟨j, List.mem_cons_of_mem _ hj, hl⟩
    rw [savedLines] at h
    by_cases hseen : seen before k.sect
    · rw [if_pos hseen] at h
      exact hrest h
    · rw [if_neg hseen] at h
      obtain h | h := List.mem_append.mp h
      · obtain h | h := List.mem_append.mp h
        · split at h
          · exact ⟨k, List.mem_cons_self, .inl (List.mem_singleton.mp h)⟩
          · cases h
        · obtain ⟨j, hj, rfl⟩ := List.mem_map.mp h
          exact ⟨j, List.mem_of_mem_filter hj, .inr rfl⟩
      · exact hrest h

theorem savedLines_inline {before ks : Table} (hks : ∀ k ∈ ks, k.Sound) {l : List Byte}
    (h : l ∈ savedLines before ks) : 0 ∉ l ∧ chr '\n' ∉ l := by
  obtain ⟨k, hk, rfl | rfl⟩ := mem_savedLines h
  · have hs := (hks k hk).sect.1
    simp only [headerLine, List.mem_cons, List.mem_append, List.not_mem_nil, or_false, not_or]
    exact ⟨⟨by decide, hs.1, by decide⟩, by decide, hs.2.1, by decide⟩
  · have hn := (hks k hk).name.1
    have hv := (hks k hk).value
    simp only [keyLine, List.mem_cons, List.mem_append, not_or]
    exact ⟨⟨hn.1, by decide, hv.1⟩, hn.2.1, by decide, hv.2.1⟩

theorem linesOf_unlines {ls : List (List Byte)} (h : ∀ l ∈ ls, chr '\n' ∉ l) :
    linesOf (unlines ls) = ls := by
  induction ls with
  | nil => rfl
  | cons l ls ih =>
    have hcons : unlines (l :: ls) = l ++ chr '\n' :: unlines ls := by
      rw [unlines, List.flatMap_cons, List.append_assoc]
      rfl
    rw [hcons, linesOf_cons (h l List.mem_cons_self),
      ih fun l hl => h l (List.mem_cons_of_mem _ hl)]

theorem settingsLoad_file [Lvgl] {d : Card} {text : List Byte} (hd : d SETTINGS_PATH = some text)
    (hlen : text.length < TEXT_MAX) (hz : 0 ∉ text) :
    settingsLoad d = (keysFrom (linesOf text) []).foldl put [] := by
  unfold settingsLoad
  by_cases hempty : text = []
  · subst hempty
    have hload : storageLoad SETTINGS_PATH (TEXT_MAX - 1) d = .error STORAGE_ESIZE := by
      rw [storageLoad, loadOne, hd]
      rfl
    rw [hload]
    rfl
  · have hload : storageLoad SETTINGS_PATH (TEXT_MAX - 1) d = .ok text := by
      have hpos : text.length ≠ 0 := fun h => hempty (List.eq_nil_of_length_eq_zero h)
      have hne : ¬ (text.length = 0 ∨ TEXT_MAX - 1 < text.length) := by omega
      rw [storageLoad, loadOne, hd]
      simp only [if_neg hne]
    rw [hload]
    simp only
    rw [parse_entries hz, entries, foldl_entries]
    rfl

theorem saveFrom_error [Lvgl] {before ks : Table} {out : Text} {rc : Int}
    (h : saveFrom before ks out = .error rc) : rc = STORAGE_ESIZE := by
  induction ks generalizing before out with
  | nil => cases h
  | cons k ks ih =>
    rw [saveFrom] at h
    by_cases hseen : seen before k.sect
    · rw [if_pos hseen] at h
      exact ih h
    · rw [if_neg hseen] at h
      simp only at h
      generalize saveGroup k.sect (k :: ks) _ = out1 at h
      by_cases hfull : TEXT_MAX ≤ out1.len
      · rw [if_pos hfull] at h
        cases h
        rfl
      · rw [if_neg hfull] at h
        exact ih h

theorem settingsSave_file [Lvgl] {t : Table} {F : Faults} {d : Card}
    (h : (settingsSave t F d).1 = .returned 0) :
    (settingsSave t F d).2 SETTINGS_PATH = some (unlines (savedLines [] t)) ∧
      (unlines (savedLines [] t)).length < TEXT_MAX := by
  unfold settingsSave at h ⊢
  cases hsave : saveFrom [] t ⟨[], 0⟩ with
  | error rc =>
    rw [hsave, saveFrom_error hsave] at h
    cases h
  | ok out =>
    have hstart : Text.Has ⟨[], 0⟩ [] := fun _ => ⟨rfl, rfl⟩
    obtain ⟨htext, hlen⟩ := saveFrom_text (by decide) hstart hsave
    rw [List.nil_append] at htext
    rw [hsave] at h
    simp only at h ⊢
    rw [← htext]
    exact ⟨storageSave_returned h, hlen⟩

/-- The lookups after a save and a further load. -/
theorem get_reload [Lvgl] {t : Table} (ht : Sound t) {F : Faults} {d : Card}
    (h : (settingsSave t F d).1 = .returned 0) (s n : List Byte) :
    get (settingsLoad (settingsSave t F d).2) s n = get (reloaded [] [] t).reverse s n := by
  obtain ⟨hfile, hlen⟩ := settingsSave_file h
  have hz : 0 ∉ unlines (savedLines [] t) := by
    intro hz
    obtain ⟨l, hl, hmem⟩ := List.mem_flatMap.mp hz
    obtain hmem | hmem := List.mem_append.mp hmem
    · exact (savedLines_inline ht.keys hl).1 hmem
    · exact absurd hmem (by decide)
  have hroom : ([] : Table).length + (reloaded [] [] t).length ≤ KEYS_MAX := by
    have hle := List.length_filter_le (fun k : Key => !seen [] k.sect) t
    have hcount := ht.count
    rw [reloaded_length, List.length_nil]
    omega
  rw [settingsLoad_file hfile hlen hz,
    linesOf_unlines fun l hl => (savedLines_inline ht.keys hl).2, keysFrom_saved ht.keys,
    get_puts (reloaded_sound ht.keys) hroom]
  exact Option.or_none

theorem get_some_mem {t : Table} {s n : List Byte} (h : (get t s n).isSome) :
    ∃ k ∈ t, k.sect = s ∧ k.name = n := by
  rw [← get_isSome] at h
  obtain ⟨k, hk⟩ := Option.isSome_iff_exists.mp h
  exact ⟨k, List.mem_of_find?_eq_some hk, Key.is_iff.mp (List.find?_some hk)⟩

theorem get_mem_some {t : Table} {k : Key} (h : k ∈ t) : (get t k.sect k.name).isSome := by
  rw [← get_isSome, find, List.find?_isSome]
  exact ⟨k, h, Key.is_iff.mpr ⟨rfl, rfl⟩⟩

/-- Without a key in front of it, the group without a section is read under another one. -/
theorem reloaded_sect_ne {t : Table} (hends : ∀ k ∈ t, trimEnd k.sect = k.sect)
    (hhead : t.head?.map Key.sect ≠ some []) {r : Key} (h : r ∈ reloaded [] [] t) : r.sect ≠ [] := by
  cases t with
  | nil => cases h
  | cons k ks =>
    have hk : k.sect ≠ [] := by simpa using hhead
    have hcur : reloaded [] [] (k :: ks) = reloaded k.sect [] (k :: ks) := by
      rw [reloaded, reloaded, sectAfter, sectAfter, if_pos hk, if_pos hk]
      rfl
    rw [hcur] at h
    obtain ⟨-, hsect | ⟨j, hj, hne, hsect⟩⟩ := mem_reloaded h
    · rwa [hsect]
    · rwa [hsect, hends j hj]

theorem reload_iff [Lvgl] {t : Table} (ht : Sound t) {F : Faults} {d : Card}
    (h : (settingsSave t F d).1 = .returned 0) :
    (∀ s n, get (settingsLoad (settingsSave t F d).2) s n = get t s n) ↔ Faithful t := by
  constructor
  · intro hall
    have hmem : ∀ k ∈ t, ∃ r ∈ reloaded [] [] t, r.sect = k.sect ∧ r.name = k.name := by
      intro k hk
      have hsome := get_mem_some hk
      rw [← hall, get_reload ht h] at hsome
      obtain ⟨r, hr, hrk⟩ := get_some_mem hsome
      exact ⟨r, List.mem_reverse.mp hr, hrk⟩
    have hends : ∀ k ∈ t, trimEnd k.sect = k.sect ∧ trimEnd k.name = k.name := by
      intro k hk
      obtain ⟨r, hr, hsect, hname⟩ := hmem k hk
      obtain ⟨⟨j, -, hj, -⟩, hcur⟩ := mem_reloaded hr
      rw [← hsect, ← hname]
      refine ⟨?_, by rw [hj, trimEnd_idempotent]⟩
      obtain hcur | ⟨i, -, -, hi⟩ := hcur
      · rw [hcur]
        rfl
      · rw [hi, trimEnd_idempotent]
    have hhead : ∀ k ∈ t, k.sect = [] → t.head?.map Key.sect = some [] := by
      intro k hk hsect
      by_contra hne
      obtain ⟨r, hr, hr', -⟩ := hmem k hk
      exact reloaded_sect_ne (fun k hk => (hends k hk).1) hne hr (hr'.trans hsect)
    refine ⟨hhead, hends, ?_⟩
    intro k hk
    rw [← get_reloaded hhead hends, ← get_reload ht h, hall]
  · intro hf s n
    rw [get_reload ht h, get_reloaded hf.headless hf.ends]
    cases hget : get t s n with
    | some v =>
      obtain ⟨k, hk, rfl, rfl⟩ := get_some_mem (t := t) (s := s) (n := n) (by rw [hget]; rfl)
      rw [hf.agree k hk, hget]
    | none =>
      cases hrev : get t.reverse s n with
      | none => rfl
      | some v =>
        obtain ⟨k, hk, rfl, rfl⟩ := get_some_mem (t := t.reverse) (s := s) (n := n) (by rw [hrev]; rfl)
        have hsome := get_mem_some (List.mem_reverse.mp hk)
        rw [hget] at hsome
        cases hsome

def tableAfter [Lvgl] (d : Card) (setters : List Setter) : Table :=
  setters.foldl Setter.run (settingsLoad d)

theorem settings_survive_iff [Lvgl] (d₀ : Card) (setters : List Setter) (F : Faults) (d : Card)
    (htext : ∀ c, storageLoad SETTINGS_PATH (TEXT_MAX - 1) d₀ = .ok c → 0 ∉ c)
    (hlegal : ∀ s ∈ setters, s.Legal)
    (hsave : (settingsSave (tableAfter d₀ setters) F d).1 = .returned 0) :
    (∀ sect name, get (settingsLoad (settingsSave (tableAfter d₀ setters) F d).2) sect name =
      get (tableAfter d₀ setters) sect name) ↔ Faithful (tableAfter d₀ setters) :=
  reload_iff (setters_sound (settingsLoad_sound htext) setters hlegal) hsave

def cardWith (text : List Byte) : Card := setFile SETTINGS_PATH (some text) fun _ => none

theorem cardWith_load (text : List Byte) : cardWith text SETTINGS_PATH = some text :=
  setFile_self _ _ _

def newerText : List Byte := ascii "mode=a\n[new]\nkey = 1\n"

section Builtin
open scoped LvglText.Builtin

theorem newerText_table : tableAfter (cardWith newerText) [.timeout 5] =
    [⟨[], ascii "mode", ascii "a"⟩, ⟨ascii "new", ascii "key", ascii "1"⟩,
      ⟨ascii "boot", ascii "timeout", ascii "5"⟩] := by
  rw [tableAfter, settingsLoad_file (cardWith_load newerText) (by decide) (by decide)]
  decide

theorem load_file {path : Name} {max : Nat} {d : Card} {text c : List Byte}
    (hd : d path = some text) (h : storageLoad path max d = .ok c) : c = text := by
  rw [storageLoad, loadOne, hd] at h
  simp only at h
  by_cases hsize : text.length = 0 ∨ max < text.length
  · rw [if_pos hsize] at h
    cases h
  · rw [if_neg hsize] at h
    exact (Except.ok.inj h).symm

theorem settings_survive_newer :
    Faithful (tableAfter (cardWith newerText) [.timeout 5]) ∧
      ∀ sect name, get (settingsLoad (settingsSave (tableAfter (cardWith newerText) [.timeout 5])
        (noFaults 36) (cardWith newerText)).2) sect name =
        get (tableAfter (cardWith newerText) [.timeout 5]) sect name := by
  have hsave : (settingsSave (tableAfter (cardWith newerText) [.timeout 5])
      (noFaults 36) (cardWith newerText)).1 = .returned 0 := by
    rw [newerText_table]
    rfl
  have hf : Faithful (tableAfter (cardWith newerText) [.timeout 5]) := by
    rw [newerText_table]
    exact ⟨by decide, by decide, by decide⟩
  have htext : ∀ c, storageLoad SETTINGS_PATH (TEXT_MAX - 1) (cardWith newerText) = .ok c →
      0 ∉ c := by
    intro c hc
    rw [load_file (cardWith_load newerText) hc]
    decide
  have hlegal : ∀ s ∈ [Setter.timeout 5], s.Legal := by
    intro s hs
    rw [List.mem_singleton.mp hs]
    trivial
  exact ⟨hf, (settings_survive_iff (cardWith newerText) [.timeout 5] (noFaults 36)
    (cardWith newerText) htext hlegal hsave).mpr hf⟩

def emptySection : List Byte := ascii "[a]\nx=1\n[]\ny=2\n"

theorem settings_lost_section :
    ¬ ∀ (d₀ : Card) (setters : List Setter) (F : Faults) (d : Card),
      (∀ c, storageLoad SETTINGS_PATH (TEXT_MAX - 1) d₀ = .ok c → 0 ∉ c) →
      (∀ s ∈ setters, s.Legal) →
      (settingsSave (tableAfter d₀ setters) F d).1 = .returned 0 →
      ∀ sect name, get (settingsLoad (settingsSave (tableAfter d₀ setters) F d).2) sect name =
        get (tableAfter d₀ setters) sect name := by
  intro hall
  have hload : settingsLoad (cardWith emptySection) =
      [⟨ascii "a", ascii "x", ascii "1"⟩, ⟨[], ascii "y", ascii "2"⟩] := by
    rw [settingsLoad_file (cardWith_load emptySection) (by decide) (by decide)]
    decide
  have htable : tableAfter (cardWith emptySection) [] = settingsLoad (cardWith emptySection) := rfl
  have htext : ∀ c, storageLoad SETTINGS_PATH (TEXT_MAX - 1) (cardWith emptySection) = .ok c →
      0 ∉ c := by
    intro c hc
    rw [load_file (cardWith_load emptySection) hc]
    decide
  have hsave : (settingsSave (tableAfter (cardWith emptySection) []) (noFaults 12)
      (cardWith emptySection)).1 = .returned 0 := by
    rw [htable, hload]
    rfl
  have hsame := hall (cardWith emptySection) [] (noFaults 12) (cardWith emptySection) htext
    (by simp) hsave
  have hsound : Sound (tableAfter (cardWith emptySection) []) := settingsLoad_sound htext
  have hf := (reload_iff hsound hsave).mp hsame
  have hhead := hf.headless ⟨[], ascii "y", ascii "2"⟩ (by rw [htable, hload]; simp) rfl
  rw [htable, hload] at hhead
  exact absurd hhead (by decide)

end Builtin

end AipcOs.Settings
