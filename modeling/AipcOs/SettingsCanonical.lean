import AipcOs.SettingsSave

/-! Saving and loading the settings as inverses: the size at which a save gives up, the tables that
come back whole, and the second save. -/
namespace AipcOs.Settings
open ByteMemory HexText Ini Storage LvglText

def groupPrints [Lvgl] (sect : List Byte) : Table → Text → List (List Piece)
  | [], _ => []
  | k :: ks, out =>
    if TEXT_MAX ≤ out.len then []
    else if k.sect = sect then
      keyFormat k :: groupPrints sect ks (out.print (keyFormat k))
    else groupPrints sect ks out

def savePrints [Lvgl] (before : Table) : Table → Text → List (List Piece)
  | [], _ => []
  | k :: ks, out =>
    if seen before k.sect then savePrints (before ++ [k]) ks out
    else
      let header := if k.sect ≠ [] then [headerFormat k.sect] else []
      let out := header.foldl Text.print out
      let group := groupPrints k.sect (k :: ks) out
      let out := group.foldl Text.print out
      header ++ group ++ if TEXT_MAX ≤ out.len then [] else savePrints (before ++ [k]) ks out

/-- The end of what `lv_snprintf(text + len, TEXT_MAX - len, ...)` stores, its NUL included. -/
def snprintfEnd [Lvgl] (len : Nat) (format : List Piece) : Nat :=
  if room len = 0 then len else len + (lvSnprintf (room len) format).1.length + 1

def Inside [Lvgl] : Text → List (List Piece) → Prop
  | _, [] => True
  | out, s :: ss =>
    out.len < TEXT_MAX ∧ snprintfEnd out.len s ≤ TEXT_MAX ∧ Inside (out.print s) ss

theorem saveGroup_prints [Lvgl] (sect : List Byte) (ks : Table) (out : Text) :
    saveGroup sect ks out = (groupPrints sect ks out).foldl Text.print out := by
  induction ks generalizing out with
  | nil => rfl
  | cons k ks ih =>
    rw [saveGroup, groupPrints]
    by_cases hfull : TEXT_MAX ≤ out.len
    · rw [if_pos hfull, if_pos hfull]
      rfl
    · rw [if_neg hfull, if_neg hfull]
      by_cases hk : k.sect = sect
      · rw [if_pos hk, if_pos hk, ih, List.foldl_cons]
      · rw [if_neg hk, if_neg hk, ih]

theorem header_prints [Lvgl] (k : Key) (out : Text) :
    (if k.sect ≠ [] then out.print (headerFormat k.sect) else out) =
      (if k.sect ≠ [] then [headerFormat k.sect] else []).foldl Text.print out := by
  split <;> rfl

/-- The prints are those of the save. -/
theorem saveFrom_prints [Lvgl] (before ks : Table) {out : Text} (hout : out.len < TEXT_MAX) :
    saveFrom before ks out =
      if TEXT_MAX ≤ ((savePrints before ks out).foldl Text.print out).len then .error STORAGE_ESIZE
      else .ok ((savePrints before ks out).foldl Text.print out) := by
  induction ks generalizing before out with
  | nil =>
    have hfits : ¬TEXT_MAX ≤ (([] : List (List Piece)).foldl Text.print out).len := by
      rw [List.foldl_nil]
      omega
    rw [saveFrom, savePrints, if_neg hfits]
    rfl
  | cons k ks ih =>
    rw [saveFrom, savePrints]
    by_cases hseen : seen before k.sect
    · rw [if_pos hseen, if_pos hseen]
      exact ih _ hout
    · rw [if_neg hseen, if_neg hseen]
      simp only [header_prints, saveGroup_prints]
      generalize (if k.sect ≠ [] then [headerFormat k.sect] else []) = header
      generalize hgroup : groupPrints k.sect (k :: ks) (header.foldl Text.print out) = group
      rw [List.foldl_append, List.foldl_append]
      generalize group.foldl Text.print (header.foldl Text.print out) = out'
      by_cases hfull : TEXT_MAX ≤ out'.len
      · rw [if_pos hfull, if_pos hfull, List.foldl_nil, if_pos hfull]
      · rw [if_neg hfull, if_neg hfull]
        exact ih _ (by omega)

theorem snprintfEnd_le [Lvgl] {len : Nat} (h : len < TEXT_MAX) (format : List Piece) :
    snprintfEnd len format ≤ TEXT_MAX := by
  have hroom := room_eq h.le
  have hpos : 0 < room len := by omega
  have hlen := lvSnprintf_length hpos format
  rw [snprintfEnd, if_neg hpos.ne']
  omega

theorem Inside.append [Lvgl] {out : Text} {ss ts : List (List Piece)} (h : Inside out ss)
    (ht : Inside (ss.foldl Text.print out) ts) : Inside out (ss ++ ts) := by
  induction ss generalizing out with
  | nil => exact ht
  | cons s ss ih => exact ⟨h.1, h.2.1, ih h.2.2 ht⟩

theorem groupPrints_inside [Lvgl] (sect : List Byte) (ks : Table) (out : Text) :
    Inside out (groupPrints sect ks out) := by
  induction ks generalizing out with
  | nil => trivial
  | cons k ks ih =>
    rw [groupPrints]
    split
    · trivial
    · rename_i hroom
      split
      · exact ⟨by omega, snprintfEnd_le (by omega) _, ih _⟩
      · exact ih _

/-- No print of a save stores behind the buffer. -/
theorem savePrints_inside [Lvgl] (before ks : Table) {out : Text} (hout : out.len < TEXT_MAX) :
    Inside out (savePrints before ks out) := by
  induction ks generalizing before out with
  | nil => trivial
  | cons k ks ih =>
    rw [savePrints]
    by_cases hseen : seen before k.sect
    · rw [if_pos hseen]
      exact ih _ hout
    · have hheader : Inside out
          (if k.sect ≠ [] then [headerFormat k.sect] else []) := by
        split
        · exact ⟨hout, snprintfEnd_le hout _, trivial⟩
        · trivial
      rw [if_neg hseen]
      simp only
      generalize (if k.sect ≠ [] then [headerFormat k.sect] else []) = header at hheader
      have hgroup := groupPrints_inside k.sect (k :: ks) (header.foldl Text.print out)
      generalize groupPrints k.sect (k :: ks) (header.foldl Text.print out) = group at hgroup
      refine Inside.append (hheader.append hgroup) ?_
      rw [List.foldl_append]
      by_cases hfull : TEXT_MAX ≤ (group.foldl Text.print (header.foldl Text.print out)).len
      · rw [if_pos hfull]
        trivial
      · rw [if_neg hfull]
        exact ih _ (by omega)

/-- The length that a group needs, or both that and what there is are too much. -/
theorem saveGroup_len [Lvgl] (sect : List Byte) (ks : Table) (out : Text) :
    (saveGroup sect ks out).len =
        out.len + (unlines ((ks.filter fun j => j.sect = sect).map keyLine)).length ∨
      TEXT_MAX ≤ (saveGroup sect ks out).len ∧
        TEXT_MAX ≤ out.len + (unlines ((ks.filter fun j => j.sect = sect).map keyLine)).length := by
  induction ks generalizing out with
  | nil => exact Or.inl rfl
  | cons k ks ih =>
    rw [saveGroup]
    by_cases hfull : TEXT_MAX ≤ out.len
    · rw [if_pos hfull]
      exact Or.inr ⟨hfull, hfull.trans (Nat.le_add_right _ _)⟩
    · rw [if_neg hfull]
      by_cases hk : k.sect = sect
      · have hcons : unlines (((k :: ks).filter fun j => j.sect = sect).map keyLine) =
            (keyLine k ++ [chr '\n']) ++ unlines ((ks.filter fun j => j.sect = sect).map keyLine) := by
          rw [List.filter_cons_of_pos (by simpa using hk)]
          rfl
        have hline := ih (out.print (keyFormat k))
        rw [Text.print_len, shown_keyFormat] at hline
        rw [if_pos hk, hcons, List.length_append, ← Nat.add_assoc]
        exact hline
      · rw [if_neg hk, List.filter_cons_of_neg (by simpa using hk)]
        exact ih _

/-- A save gives up exactly on a text that leaves no byte of the buffer free. -/
theorem saveFrom_error_iff [Lvgl] (before ks : Table) {out : Text} (hout : out.len < TEXT_MAX) :
    saveFrom before ks out = .error STORAGE_ESIZE ↔
      TEXT_MAX ≤ out.len + (unlines (savedLines before ks)).length := by
  induction ks generalizing before out with
  | nil =>
    have hlen : ¬TEXT_MAX ≤ out.len + (unlines (savedLines before [])).length := by
      have hnil : (unlines (savedLines before [])).length = 0 := rfl
      omega
    exact ⟨fun h => (nomatch h), fun h => absurd h hlen⟩
  | cons k ks ih =>
    rw [saveFrom, savedLines]
    by_cases hseen : seen before k.sect
    · rw [if_pos hseen, if_pos hseen]
      exact ih _ hout
    · have hheader : (if k.sect ≠ [] then out.print (headerFormat k.sect) else out).len =
          out.len + (unlines (if k.sect ≠ [] then [headerLine k.sect] else [])).length := by
        split
        · rw [Text.print_len, shown_headerFormat, unlines, List.flatMap_singleton]
        · rfl
      rw [if_neg hseen, if_neg hseen, unlines_append, unlines_append, List.length_append,
        List.length_append, ← Nat.add_assoc, ← Nat.add_assoc, ← hheader]
      simp only
      generalize (if k.sect ≠ [] then out.print (headerFormat k.sect) else out) = out1
      have hgroup := saveGroup_len k.sect (k :: ks) out1
      generalize hout2 : saveGroup k.sect (k :: ks) out1 = out2 at hgroup
      by_cases hfull : TEXT_MAX ≤ out2.len
      · rw [if_pos hfull]
        refine ⟨fun _ => ?_, fun _ => rfl⟩
        obtain hgroup | ⟨-, hgroup⟩ := hgroup <;> omega
      · have heq := hgroup.resolve_right fun h => hfull h.1
        rw [if_neg hfull, ih _ (by omega), heq]

def savedText (t : Table) : List Byte := unlines (savedLines [] t)

theorem settingsSave_cases [Lvgl] (t : Table) (F : Faults) (d : Card) :
    settingsSave t F d =
      if TEXT_MAX ≤ (savedText t).length then (.returned STORAGE_ESIZE, d)
      else storageSave SETTINGS_PATH (savedText t) F d := by
  have hiff : saveFrom [] t ⟨[], 0⟩ = .error STORAGE_ESIZE ↔
      TEXT_MAX ≤ 0 + (savedText t).length := saveFrom_error_iff [] t (by decide)
  rw [Nat.zero_add] at hiff
  rw [settingsSave]
  cases hsave : saveFrom [] t ⟨[], 0⟩ with
  | error rc =>
    rw [hsave, saveFrom_error hsave] at hiff
    rw [saveFrom_error hsave]
    exact (if_pos (hiff.mp rfl)).symm
  | ok out =>
    have hstart : Text.Has ⟨[], 0⟩ [] := fun _ => ⟨rfl, rfl⟩
    have htext := (saveFrom_text (by decide) hstart hsave).1
    rw [hsave] at hiff
    have hfits : ¬TEXT_MAX ≤ (savedText t).length := fun h => nomatch hiff.mpr h
    rw [if_neg hfits]
    simp only
    rw [htext]
    rfl

theorem commit_ne_esize (path tmp : Name) (F : Faults) (d : Card) :
    (commit path tmp F d).1 ≠ .returned STORAGE_ESIZE := by
  have heio : Exit.returned STORAGE_EIO ≠ .returned STORAGE_ESIZE := by decide
  have hok : Exit.returned 0 ≠ .returned STORAGE_ESIZE := by decide
  rw [commit]
  cases atomic F.unlink (setFile path none) d with
  | cut d => nofun
  | error d => exact heio
  | ok d =>
    simp only
    split
    · exact heio
    · cases atomic F.rename (fun d => setFile path (d tmp) (setFile tmp none d)) d with
      | cut d => nofun
      | error d => exact heio
      | ok d => exact hok

theorem storageSave_ne_esize (path : Name) (c : List Byte) (F : Faults) (d : Card) :
    (storageSave path c F d).1 ≠ .returned STORAGE_ESIZE := by
  have heio : Exit.returned STORAGE_EIO ≠ .returned STORAGE_ESIZE := by decide
  rw [storageSave]
  cases newName path with
  | none => exact heio
  | some tmp =>
    simp only
    cases writeNew tmp c F d with
    | cut d =>
      intro h
      cases h
    | error d => exact heio
    | ok d => exact commit_ne_esize path tmp F d

theorem settingsSave_esize_iff [Lvgl] (t : Table) (F : Faults) (d : Card) :
    (settingsSave t F d).1 = .returned STORAGE_ESIZE ↔ TEXT_MAX ≤ (savedText t).length := by
  rw [settingsSave_cases]
  by_cases hfull : TEXT_MAX ≤ (savedText t).length
  · rw [if_pos hfull]
    exact ⟨fun _ => hfull, fun _ => rfl⟩
  · rw [if_neg hfull]
    exact ⟨fun h => absurd h (storageSave_ne_esize _ _ F d), fun h => absurd h hfull⟩

def firstsFrom (before : Table) : Table → List (List Byte)
  | [] => []
  | k :: ks =>
    if seen before k.sect then firstsFrom (before ++ [k]) ks
    else k.sect :: firstsFrom (before ++ [k]) ks

def group (t : Table) (sect : List Byte) : Table := t.filter fun k => k.sect = sect

def groupLines (t : Table) (sect : List Byte) : List (List Byte) :=
  (if sect ≠ [] then [headerLine sect] else []) ++ (group t sect).map keyLine

theorem seen_iff (before : Table) (sect : List Byte) :
    seen before sect = true ↔ ∃ k ∈ before, k.sect = sect := by
  simp [seen]

theorem group_of_not_seen {before ks : Table} {sect : List Byte} (h : ¬seen before sect = true) :
    group (before ++ ks) sect = group ks sect := by
  rw [group, List.filter_append, List.filter_eq_nil_iff.mpr, List.nil_append]
  · rfl
  · intro k hk hs
    exact h ((seen_iff before sect).mpr ⟨k, hk, of_decide_eq_true hs⟩)

theorem savedLines_eq (before ks : Table) :
    savedLines before ks = (firstsFrom before ks).flatMap (groupLines (before ++ ks)) := by
  induction ks generalizing before with
  | nil => rfl
  | cons k ks ih =>
    have hrest := ih (before ++ [k])
    rw [List.append_assoc, List.singleton_append] at hrest
    rw [savedLines, firstsFrom]
    by_cases hseen : seen before k.sect
    · rw [if_pos hseen, if_pos hseen, hrest]
    · rw [if_neg hseen, if_neg hseen, List.flatMap_cons, hrest, groupLines, group_of_not_seen hseen]
      rfl

theorem firstsFrom_seen {before ks : Table} (h : ∀ k ∈ ks, seen before k.sect = true) (rest : Table) :
    firstsFrom before (ks ++ rest) = firstsFrom (before ++ ks) rest := by
  induction ks generalizing before with
  | nil => rw [List.nil_append, List.append_nil]
  | cons k ks ih =>
    have hks : ∀ j ∈ ks, seen (before ++ [k]) j.sect = true := by
      intro j hj
      rw [seen_snoc, h j (List.mem_cons_of_mem _ hj)]
      rfl
    rw [List.cons_append, firstsFrom, if_pos (h k List.mem_cons_self), ih hks, List.append_assoc,
      List.singleton_append]

theorem mem_firstsFrom {before ks : Table} {s : List Byte} (h : s ∈ firstsFrom before ks) :
    ¬seen before s = true ∧ ∃ k ∈ ks, k.sect = s := by
  induction ks generalizing before with
  | nil => cases h
  | cons k ks ih =>
    have hlater (h : s ∈ firstsFrom (before ++ [k]) ks) :
        ¬seen before s = true ∧ ∃ j ∈ k :: ks, j.sect = s := by
      obtain ⟨hnot, j, hj, hs⟩ := ih h
      rw [seen_snoc, Bool.or_eq_true, not_or] at hnot
      exact ⟨hnot.1, j, List.mem_cons_of_mem _ hj, hs⟩
    rw [firstsFrom] at h
    split at h
    · exact hlater h
    · rename_i hseen
      obtain rfl | h := List.mem_cons.mp h
      · exact ⟨hseen, k, List.mem_cons_self, rfl⟩
      · exact hlater h

theorem firstsFrom_nodup (before ks : Table) : (firstsFrom before ks).Nodup := by
  induction ks generalizing before with
  | nil => exact List.nodup_nil
  | cons k ks ih =>
    rw [firstsFrom]
    split
    · exact ih _
    · refine List.nodup_cons.mpr ⟨fun h => (mem_firstsFrom h).1 ?_, ih _⟩
      rw [seen_snoc]
      simp

/-- Whole groups one after the other: their sections come in that order. -/
theorem firstsFrom_groups {before : Table} {ss : List (List Byte)} {g : List Byte → Table}
    (hnd : ss.Nodup) (hg : ∀ s ∈ ss, g s ≠ [] ∧ ∀ k ∈ g s, k.sect = s)
    (hnew : ∀ s ∈ ss, ¬seen before s = true) : firstsFrom before (ss.flatMap g) = ss := by
  induction ss generalizing before with
  | nil => rfl
  | cons s ss ih =>
    obtain ⟨hne, hsect⟩ := hg s List.mem_cons_self
    obtain ⟨hs, hnd⟩ := List.nodup_cons.mp hnd
    obtain ⟨k, ks, hk⟩ := List.exists_cons_of_ne_nil hne
    rw [hk] at hsect
    have hks : k.sect = s := hsect k List.mem_cons_self
    have hsame : ∀ j ∈ ks, seen (before ++ [k]) j.sect = true := by
      intro j hj
      rw [seen_snoc, hks, hsect j (List.mem_cons_of_mem _ hj)]
      simp
    have hnew' : ∀ s' ∈ ss, ¬seen (before ++ [k] ++ ks) s' = true := by
      intro s' hs' hseen
      obtain ⟨j, hj, hjs⟩ := (seen_iff _ _).mp hseen
      rw [List.append_assoc, List.singleton_append] at hj
      obtain hj | hj := List.mem_append.mp hj
      · exact hnew s' (List.mem_cons_of_mem _ hs') ((seen_iff _ _).mpr ⟨j, hj, hjs⟩)
      · rw [hsect j hj] at hjs
        exact hs (hjs ▸ hs')
    rw [List.flatMap_cons, hk, List.cons_append, firstsFrom, hks,
      if_neg (hnew s List.mem_cons_self), firstsFrom_seen hsame,
      ih hnd (fun s' hs' => hg s' (List.mem_cons_of_mem _ hs')) hnew']

/-- A table that the text format can carry as it is. -/
structure Canonical (t : Table) : Prop where
  count : t.length ≤ KEYS_MAX
  distinct : t.Pairwise fun j k => ¬(j.sect = k.sect ∧ j.name = k.name)
  fits : ∀ k ∈ t, k.sect.length < 24 ∧ k.name.length < 32 ∧ k.value.length < 96
  trimmed : ∀ k ∈ t, trimmed k.sect = k.sect ∧ trimmed k.name = k.name ∧ trimmed k.value = k.value
  clean : ∀ k ∈ t, ∀ s ∈ [k.sect, k.name, k.value], 0 ∉ s ∧ chr '\n' ∉ s
  sect_text : ∀ k ∈ t, chr ']' ∉ k.sect
  name_text : ∀ k ∈ t, chr '=' ∉ k.name ∧
    ∀ c ∈ k.name.head?, c ≠ chr ';' ∧ c ≠ chr '#' ∧ c ≠ chr '['
  headless : t.Pairwise fun j k => k.sect = [] → j.sect = []

theorem inline_of_trimmed {s : List Byte} (ht : Ini.trimmed s = s) (hc : 0 ∉ s ∧ chr '\n' ∉ s) :
    Inline s ∧ trimEnd s = s := by
  have hi : Inline s := by
    have h := inline_trimmed hc.1 hc.2
    rwa [ht] at h
  exact ⟨hi, by rw [← trimmed_of_inline hi.2.2, ht]⟩

section Canonical
variable {t : Table} (ht : Canonical t)
include ht

theorem Canonical.key {k : Key} (hk : k ∈ t) : k.Sound ∧ trimEnd k.sect = k.sect ∧ reread k = k := by
  obtain ⟨hs, hn, hv⟩ := ht.trimmed k hk
  obtain ⟨his, hes⟩ := inline_of_trimmed hs (ht.clean k hk _ (by simp))
  obtain ⟨hin, hen⟩ := inline_of_trimmed hn (ht.clean k hk _ (by simp))
  obtain ⟨hiv, hev⟩ := inline_of_trimmed hv (ht.clean k hk _ (by simp))
  obtain ⟨hfs, hfn, hfv⟩ := ht.fits k hk
  refine ⟨⟨⟨his, ht.sect_text k hk⟩, ⟨hin, ht.name_text k hk⟩, hiv, by omega, by omega, by omega⟩,
    hes, ?_⟩
  rw [reread, hen, hev]

theorem Canonical.sound : Sound t := ⟨fun _ hk => (ht.key hk).1, ht.count⟩

theorem Canonical.head {k : Key} (hk : k ∈ t) (hs : k.sect = []) :
    t.head?.map Key.sect = some [] := by
  have hpair := ht.headless
  cases t with
  | nil => cases hk
  | cons j ks =>
    obtain rfl | hk := List.mem_cons.mp hk
    · exact congrArg some hs
    · exact congrArg some ((List.pairwise_cons.mp hpair).1 k hk hs)

/-- Read from the start of a text, no key of the empty section is behind a header. -/
theorem Canonical.start : (∀ k ∈ t, k.sect = [] → seen [] []) ∨
    (([] : List Byte) = [] ∧ t.head?.map Key.sect = some []) := by
  by_cases hempty : ∃ k ∈ t, k.sect = []
  · obtain ⟨k, hk, hsect⟩ := hempty
    exact .inr ⟨rfl, ht.head hk hsect⟩
  · exact .inl fun k hk hsect => absurd ⟨k, hk, hsect⟩ hempty

end Canonical

theorem get_distinct {t : Table} (hd : t.Pairwise fun j k => ¬(j.sect = k.sect ∧ j.name = k.name))
    {k : Key} (hk : k ∈ t) : get t k.sect k.name = some k.value := by
  induction t with
  | nil => cases hk
  | cons j ks ih =>
    obtain ⟨hj, hks⟩ := List.pairwise_cons.mp hd
    rw [get_cons]
    obtain rfl | hk := List.mem_cons.mp hk
    · rw [if_pos (Key.is_iff.mpr ⟨rfl, rfl⟩)]
    · rw [if_neg fun h => hj k hk (Key.is_iff.mp h), ih hks hk]

/-- The keys come back group by group. -/
theorem reloaded_eq {cur : List Byte} {before ks : Table}
    (hkeep : ∀ k ∈ ks, trimEnd k.sect = k.sect ∧ reread k = k)
    (hhead : (∀ k ∈ ks, k.sect = [] → seen before []) ∨
      (cur = [] ∧ ks.head?.map Key.sect = some [])) :
    reloaded cur before ks = (firstsFrom before ks).flatMap (group (before ++ ks)) := by
  induction ks generalizing cur before with
  | nil => rfl
  | cons k ks ih =>
    have hrest : ∀ j ∈ ks, j.sect = [] → seen (before ++ [k]) [] := by
      intro j hj hempty
      rw [seen_snoc]
      obtain hleft | ⟨-, hk⟩ := hhead
      · rw [hleft j (List.mem_cons_of_mem _ hj) hempty]
        rfl
      · have hk : k.sect = [] := by simpa using hk
        simp [hk]
    have ih := fun cur => @ih cur (before ++ [k]) (fun j hj => hkeep j (List.mem_cons_of_mem _ hj))
      (.inl hrest)
    simp only [List.append_assoc, List.singleton_append] at ih
    rw [reloaded, firstsFrom]
    by_cases hseen : seen before k.sect
    · rw [if_pos hseen, if_pos hseen, ih]
    · have hafter : sectAfter cur k = k.sect := by
        rw [sectAfter]
        by_cases hk : k.sect = []
        · rw [if_neg (by simp [hk])]
          obtain hleft | ⟨hcur, -⟩ := hhead
          · have hold := hleft k List.mem_cons_self hk
            rw [← hk] at hold
            exact absurd hold hseen
          · rw [hcur, hk]
        · rw [if_pos hk]
          exact (hkeep k List.mem_cons_self).1
      have hsame : ∀ j ∈ (k :: ks).filter (fun j => j.sect = k.sect), reread j = j :=
        fun j hj => (hkeep j (List.mem_of_mem_filter hj)).2
      rw [if_neg hseen, if_neg hseen, List.flatMap_cons, hafter, group_reread, ih,
        List.map_congr_left hsame, List.map_id', group_of_not_seen hseen]
      rfl

/-- Keys that the table does not have yet are appended. -/
theorem foldl_put_new [Lvgl] {es t : Table} (hes : ∀ k ∈ es, k.Sound)
    (hd : (t ++ es).Pairwise fun j k => ¬(j.sect = k.sect ∧ j.name = k.name))
    (hroom : (t ++ es).length ≤ KEYS_MAX) : es.foldl put t = t ++ es := by
  induction es generalizing t with
  | nil => rw [List.foldl_nil, List.append_nil]
  | cons k es ih =>
    have hk := hes k List.mem_cons_self
    have hnew : ¬(find t k.sect k.name).isSome := by
      rw [get_isSome]
      intro hsome
      obtain ⟨j, hj, hjk⟩ := get_some_mem hsome
      exact (List.pairwise_append.mp hd).2.2 j hj k List.mem_cons_self hjk
    have hlen : ¬t.length = KEYS_MAX := by
      rw [List.length_append, List.length_cons] at hroom
      omega
    have hput : put t k = t ++ [k] := by
      rw [put, set, if_neg hnew, if_neg hlen]
      obtain ⟨hsect, hname, hvalue⟩ := hk.copied
      rw [hsect, hname, hvalue]
    have hsplit : t ++ k :: es = t ++ [k] ++ es := by simp
    rw [hsplit] at hd hroom ⊢
    rw [List.foldl_cons, hput, ih (fun j hj => hes j (List.mem_cons_of_mem _ hj)) hd hroom]

section Reload
variable {t : Table} (ht : Canonical t)
include ht

/-- The table after a save and a load: the same keys, section by section. -/
theorem Canonical.reloaded_groups :
    reloaded [] [] t = (firstsFrom [] t).flatMap (group t) := by
  exact reloaded_eq (fun k hk => (ht.key hk).2) ht.start

theorem group_groups (s : List Byte) :
    group ((firstsFrom [] t).flatMap (group t)) s = group t s := by
  have hfilter := reloaded_filter (fun k hk => (ht.key hk).2.1) ht.start s
  have hsame : ∀ j ∈ t.filter (fun j => j.sect = s), reread j = j :=
    fun j hj => (ht.key (List.mem_of_mem_filter hj)).2.2
  rw [if_neg (by simp [seen]), List.map_congr_left hsame, List.map_id'] at hfilter
  rw [← ht.reloaded_groups]
  exact hfilter

theorem Canonical.perm : ((firstsFrom [] t).flatMap (group t)).Perm t := by
  rw [List.perm_iff_count]
  intro k
  have hgroup (u : Table) : (group u k.sect).count k = u.count k :=
    List.count_filter (by simp)
  rw [← hgroup, group_groups ht, hgroup]

theorem Canonical.reload [Lvgl] {F : Faults} {d : Card} (h : (settingsSave t F d).1 = .returned 0) :
    settingsLoad (settingsSave t F d).2 = (firstsFrom [] t).flatMap (group t) := by
  have hkeys := ht.sound.keys
  obtain ⟨hfile, hlen⟩ := settingsSave_file h
  have hz : 0 ∉ unlines (savedLines [] t) := by
    intro hz
    obtain ⟨l, hl, hmem⟩ := List.mem_flatMap.mp hz
    obtain hmem | hmem := List.mem_append.mp hmem
    · exact (savedLines_inline hkeys hl).1 hmem
    · exact absurd hmem (by decide)
  have hperm := ht.perm
  have hdistinct := hperm.symm.pairwise ht.distinct fun h hjk => h ⟨hjk.1.symm, hjk.2.symm⟩
  have hcount : ((firstsFrom [] t).flatMap (group t)).length ≤ KEYS_MAX := by
    rw [hperm.length_eq]
    exact ht.count
  rw [settingsLoad_file hfile hlen hz, linesOf_unlines fun l hl => (savedLines_inline hkeys hl).2,
    keysFrom_saved hkeys, ht.reloaded_groups]
  exact foldl_put_new (fun k hk => hkeys k (hperm.mem_iff.mp hk)) hdistinct hcount

/-- The reloaded table has the same groups in the same order, and so the same text. -/
theorem Canonical.savedText_groups :
    savedText ((firstsFrom [] t).flatMap (group t)) = savedText t := by
  have hg : ∀ s ∈ firstsFrom [] t, group t s ≠ [] ∧ ∀ k ∈ group t s, k.sect = s := by
    intro s hs
    obtain ⟨-, k, hk, hks⟩ := mem_firstsFrom hs
    exact ⟨List.ne_nil_of_mem (List.mem_filter.mpr ⟨hk, decide_eq_true hks⟩),
      fun k hk => of_decide_eq_true (List.mem_filter.mp hk).2⟩
  have hfirsts : firstsFrom [] ((firstsFrom [] t).flatMap (group t)) = firstsFrom [] t :=
    firstsFrom_groups (firstsFrom_nodup [] t) hg fun s _ => by simp [seen]
  have hlines : groupLines ((firstsFrom [] t).flatMap (group t)) = groupLines t := by
    funext s
    rw [groupLines, groupLines, group_groups ht]
  rw [savedText, savedText, savedLines_eq, savedLines_eq, List.nil_append, List.nil_append, hfirsts,
    hlines]

theorem Canonical.faithful : Faithful t := by
  have hreverse : t.reverse.Pairwise fun j k => ¬(j.sect = k.sect ∧ j.name = k.name) := by
    rw [List.pairwise_reverse]
    exact ht.distinct.imp fun h hjk => h ⟨hjk.1.symm, hjk.2.symm⟩
  refine ⟨fun k hk hs => ht.head hk hs, fun k hk => ?_, fun k hk => ?_⟩
  · obtain ⟨-, hs, hr⟩ := ht.key hk
    exact ⟨hs, congrArg Key.name hr⟩
  · obtain ⟨-, -, hr⟩ := ht.key hk
    rw [get_distinct ht.distinct hk, get_distinct hreverse (List.mem_reverse.mpr hk)]
    exact congrArg (some ∘ Key.value) hr

end Reload

theorem settings_canonical [Lvgl] (t : Table) (ht : Canonical t) (F : Faults) (d : Card) :
    ((settingsSave t F d).1 = .returned 0 →
      (∀ s n, get (settingsLoad (settingsSave t F d).2) s n = get t s n) ∧
      (settingsSave t F d).2 SETTINGS_PATH = some (savedText t) ∧
      ∀ F' d', settingsSave (settingsLoad (settingsSave t F d).2) F' d' = settingsSave t F' d') ∧
    settingsSave t F d =
      (if TEXT_MAX ≤ (savedText t).length then (.returned STORAGE_ESIZE, d)
        else storageSave SETTINGS_PATH (savedText t) F d) ∧
    ((settingsSave t F d).1 = .returned STORAGE_ESIZE ↔ TEXT_MAX ≤ (savedText t).length) ∧
    Inside ⟨[], 0⟩ (savePrints [] t ⟨[], 0⟩) := by
  refine ⟨fun h => ⟨(reload_iff ht.sound h).mpr ht.faithful, (settingsSave_file h).1, ?_⟩,
    settingsSave_cases t F d, settingsSave_esize_iff t F d, savePrints_inside [] t (by decide)⟩
  intro F' d'
  rw [ht.reload h, settingsSave_cases, settingsSave_cases, ht.savedText_groups]

def mixedTable : Table :=
  [⟨[], ascii "mode", ascii "a"⟩, ⟨ascii "boot", ascii "timeout", ascii "5"⟩,
    ⟨ascii "cfw", ascii "diag", ascii "on"⟩, ⟨ascii "boot", ascii "default", ascii "My OS"⟩]

section Builtin
open scoped LvglText.Builtin

theorem settings_canonical_mixed :
    Canonical mixedTable ∧
      settingsSave (settingsLoad (settingsSave mixedTable (noFaults 52) fun _ => none).2) (noFaults 52)
        (fun _ => none) = settingsSave mixedTable (noFaults 52) fun _ => none := by
  have hc : Canonical mixedTable :=
    ⟨by decide, by decide, by decide, by decide, by decide, by decide, by decide, by decide⟩
  have hsave : (settingsSave mixedTable (noFaults 52) fun _ => none).1 = .returned 0 := by rfl
  exact ⟨hc, ((settings_canonical mixedTable hc (noFaults 52) fun _ => none).1 hsave).2.2 _ _⟩

end Builtin

end AipcOs.Settings
