import AipcOs.Entries
import AipcOs.SettingsSave

/-! aipc-boot/ui_launch.c and ui_pages.c: the launch items, the default one, and the left and right
keys on a setting. -/
namespace AipcOs.Launch
open ByteMemory HexText Ini Storage Settings LvglText
open Entries (BootEntry loadedFrom)

def TIMEOUT_MAX_S : Word := 99
def BACKLIGHT_STEP : Word := 10

inductive Kind where
  | linux | winceCfw | wince
  deriving DecidableEq

structure LaunchItem where
  kind : Kind
  entry : Option BootEntry
  title : List Byte
  help : List Byte
  deriving DecidableEq

def launchReload (entries : List BootEntry) : List LaunchItem :=
  entries.map (fun e => ⟨.linux, some e, e.title, e.description⟩) ++
    [⟨.winceCfw, none, ascii "Windows CE (CFW)",
        ascii "Boots from NAND, with the custom firmware."⟩,
      ⟨.wince, none, ascii "Windows CE (unmodified)",
        ascii "Boots from NAND, without any modifications."⟩]

variable (items : List LaunchItem)

def launchTitle (i : Nat) : List Byte := ((items[i]?).map LaunchItem.title).getD []

def launchFind (title : List Byte) : Option Nat := items.findIdx? fun it => it.title = title

def launchDefault (t : Table) : Nat := (launchFind items (settingsDefault t)).getD 0

def OPT_DEFAULT : Nat := 0
def OPT_TIMEOUT : Nat := 1
def OPT_BACKLIGHT : Nat := 2
def OPT_THEME : Nat := 3

/-- Without a card, only the brightness and the theme show. -/
def optionOfItem (ready : Bool) (item : Nat) : Nat := if ready then item else OPT_BACKLIGHT + item

def sideTarget (n i : Nat) (dir : Int) : Nat := ((i + dir + n : Int).tmod n).toNat

def sideTimeout (dir : Int) (s : Word) : Word :=
  if TIMEOUT_MAX_S < s then if 0 < dir then 1 else TIMEOUT_MAX_S
  else if 0 < dir then if s = TIMEOUT_MAX_S then 1 else s + 1
  else if s = 1 then TIMEOUT_MAX_S else s - 1

def sideBacklight (dir : Int) (b : Word) : Word :=
  let b :=
    if 0 < dir then if 100 ≤ b then BitVec.ofNat 32 BACKLIGHT_MIN else b + BACKLIGHT_STEP
    else if b ≤ BitVec.ofNat 32 BACKLIGHT_MIN then 100 else b - BACKLIGHT_STEP
  if 100 < b then 100 else b

/-- What the left or right key does to the settings, and whether the item takes the key. -/
def settingsSide [Lvgl] (ready : Bool) (t : Table) (item : Nat) (dir : Int) : Table × Bool :=
  let item := optionOfItem ready item
  if item = OPT_DEFAULT then
    (settingsSetDefault t (launchTitle items (sideTarget items.length (launchDefault items t) dir)),
      true)
  else if item = OPT_TIMEOUT then (settingsSetTimeout t (sideTimeout dir (settingsTimeout t)), true)
  else if item = OPT_BACKLIGHT then
    (settingsSetBacklight t (sideBacklight dir (settingsBacklight t)), true)
  else if item = OPT_THEME then (settingsSetDark t (!settingsDark t), true)
  else (t, false)

def isDefault : Key → Bool := Key.is (ascii "boot") (ascii "default")

structure Kept (t : Table) : Prop where
  single : t.countP isDefault ≤ 1
  count : t.length ≤ KEYS_MAX

def Room (t : Table) : Prop :=
  (find t (ascii "boot") (ascii "default")).isSome ∨ t.length < KEYS_MAX

instance (t : Table) : Decidable (Room t) := by unfold Room; infer_instance

def First (j : Nat) : Prop := ∀ k < j, launchTitle items k ≠ launchTitle items j

instance (j : Nat) : Decidable (First items j) := by unfold First; infer_instance

def presses [Lvgl] (t : Table) (dir : Int) : Nat → Table
  | 0 => t
  | k + 1 => (settingsSide items true (presses t dir k) OPT_DEFAULT dir).1

/-- As many presses as there are items visit every item once and return. -/
def Cycles [Lvgl] (t : Table) (dir : Int) : Prop :=
  ((List.range items.length).map fun k => launchDefault items (presses items t dir (k + 1))).Perm
      (List.range items.length) ∧
    launchDefault items (presses items t dir items.length) = launchDefault items t

section Tables
variable {t : Table}

theorem countP_overwrite [Lvgl] (sect name value : List Byte) (t : Table) :
    (overwrite sect name value t).countP isDefault = t.countP isDefault := by
  induction t with
  | nil => rfl
  | cons k ks ih =>
    rw [overwrite]
    split
    · rw [List.countP_cons, List.countP_cons]
      rfl
    · rw [List.countP_cons, List.countP_cons, ih]

theorem countP_of_absent (h : ¬(find t (ascii "boot") (ascii "default")).isSome) :
    t.countP isDefault = 0 := by
  rw [Option.not_isSome_iff_eq_none, find, List.find?_eq_none] at h
  exact List.countP_eq_zero.mpr h

theorem set_kept [Lvgl] (h : Kept t) (sect name : List Byte) (value : Option (List Byte)) :
    Kept (Settings.set t sect name value) := by
  have hcount := h.count
  cases value with
  | none => exact ⟨(List.eraseP_sublist.countP_le).trans h.single, List.length_eraseP_le.trans hcount⟩
  | some value =>
    rw [Settings.set]
    split
    · exact ⟨(countP_overwrite _ _ _ t).trans_le h.single, (overwrite_length _ _ _ t).trans_le hcount⟩
    · rename_i habsent
      split
      · exact h
      · rename_i hroom
        refine ⟨?_, by rw [List.length_append, List.length_singleton]; omega⟩
        rw [List.countP_append, List.countP_singleton]
        split
        · rename_i hkey
          obtain ⟨hs, hn⟩ := Key.is_iff.mp hkey
          have hsect : sect = ascii "boot" := eq_of_lvStrlcpy hs (by decide)
          have hname : name = ascii "default" := eq_of_lvStrlcpy hn (by decide)
          rw [hsect, hname] at habsent
          rw [countP_of_absent habsent]
        · exact h.single

theorem kept_nil : Kept [] := ⟨Nat.zero_le _, Nat.zero_le _⟩

theorem settingsLoad_kept [Lvgl] (d : Card) : Kept (settingsLoad d) := by
  rw [settingsLoad]
  split
  · exact kept_nil
  · exact iniParse_invariant (P := Kept) onKey
      (fun t e ht => set_kept ht e.sect e.name (some e.value)) _ kept_nil

theorem setter_kept [Lvgl] (h : Kept t) (s : Setter) : Kept (s.run t) := by
  cases s with
  | default title =>
    rw [Setter.run, settingsSetDefault]
    exact set_kept h _ _ _
  | timeout s =>
    rw [Setter.run, settingsSetTimeout]
    split <;> exact set_kept h _ _ _
  | backlight percent =>
    rw [Setter.run, settingsSetBacklight]
    split <;> exact set_kept h _ _ _
  | dark on =>
    rw [Setter.run, settingsSetDark]
    exact set_kept h _ _ _
  | cfw id on =>
    rw [Setter.run, settingsSetCfw]
    exact set_kept h _ _ _
  | reset => exact kept_nil

theorem tableAfter_kept [Lvgl] (d : Card) (setters : List Setter) : Kept (tableAfter d setters) := by
  rw [tableAfter]
  induction setters using List.reverseRecOn with
  | nil => exact settingsLoad_kept d
  | append_singleton setters s ih =>
    rw [List.foldl_append]
    exact setter_kept ih s

theorem settingsSetDefault_nil [Lvgl] (t : Table) : settingsSetDefault t [] = t.eraseP isDefault := by
  rw [settingsSetDefault, if_pos rfl]
  rfl

theorem eraseP_of_absent (h : ¬(find t (ascii "boot") (ascii "default")).isSome) :
    t.eraseP isDefault = t := by
  rw [Option.not_isSome_iff_eq_none, find, List.find?_eq_none] at h
  exact List.eraseP_of_forall_not h

/-- A removed key leaves no other of its name. -/
theorem get_eraseP (h : Kept t) :
    get (t.eraseP isDefault) (ascii "boot") (ascii "default") = none := by
  have hsingle := h.single
  rw [Settings.get, Option.map_eq_none_iff, find, List.find?_eq_none]
  by_cases hold : (find t (ascii "boot") (ascii "default")).isSome
  · obtain ⟨k, hk⟩ := Option.isSome_iff_exists.mp hold
    obtain ⟨a, before, behind, -, ha, ht, herase⟩ :=
      List.exists_of_eraseP (p := isDefault) (List.mem_of_find?_eq_some hk) (List.find?_some hk)
    change ∀ k ∈ t.eraseP isDefault, ¬isDefault k = true
    rw [ht, List.countP_append, List.countP_cons, if_pos ha] at hsingle
    rw [herase, ← List.countP_eq_zero, List.countP_append]
    omega
  · rw [eraseP_of_absent hold]
    exact List.countP_eq_zero.mp (countP_of_absent hold)

theorem get_settingsSetDefault [Lvgl] {title : List Byte} (htitle : title ≠ []) (hroom : Room t) :
    get (settingsSetDefault t title) (ascii "boot") (ascii "default") =
      some (lvStrlcpy 96 title) := by
  rw [settingsSetDefault, if_neg htitle, Settings.set]
  by_cases hold : (find t (ascii "boot") (ascii "default")).isSome
  · rw [if_pos hold, get_overwrite, if_pos ⟨rfl, rfl⟩]
    rw [get_isSome] at hold
    obtain ⟨v, hv⟩ := Option.isSome_iff_exists.mp hold
    rw [hv]
    rfl
  · have hlt : t.length < KEYS_MAX := hroom.resolve_left hold
    have hsect : lvStrlcpy 24 (ascii "boot") = ascii "boot" := lvStrlcpy_fits (by decide)
    have hname : lvStrlcpy 32 (ascii "default") = ascii "default" := lvStrlcpy_fits (by decide)
    rw [if_neg hold, if_neg hlt.ne, get_append, hsect, hname]
    rw [get_isSome, Option.not_isSome_iff_eq_none] at hold
    rw [hold]
    rfl

/-- A title that fits is found again as it is, if there is room for it. -/
theorem settingsDefault_set [Lvgl] (h : Kept t) {title : List Byte} (hfits : title.length ≤ 95)
    (hroom : Room t) : settingsDefault (settingsSetDefault t title) = title := by
  rw [settingsDefault]
  by_cases hempty : title = []
  · rw [hempty, settingsSetDefault_nil, get_eraseP h]
    rfl
  · rw [get_settingsSetDefault hempty hroom, Option.getD_some]
    exact lvStrlcpy_fits (Nat.lt_succ_of_le hfits)

/-- Without room, no choice is stored. -/
theorem settingsSetDefault_full [Lvgl] (h : Kept t) (hroom : ¬Room t) (title : List Byte) :
    settingsSetDefault t title = t := by
  obtain ⟨habsent, hfull⟩ := not_or.mp hroom
  have hlen : t.length = KEYS_MAX := Nat.le_antisymm h.count (Nat.le_of_not_lt hfull)
  by_cases hempty : title = []
  · rw [hempty, settingsSetDefault_nil, eraseP_of_absent habsent]
  · rw [settingsSetDefault, if_neg hempty, Settings.set, if_neg habsent, if_pos hlen]

theorem settingsSetDefault_room [Lvgl] (h : Kept t) (hroom : Room t) (title : List Byte) :
    Room (settingsSetDefault t title) := by
  by_cases hempty : title = []
  · rw [hempty, settingsSetDefault_nil]
    by_cases hold : (find t (ascii "boot") (ascii "default")).isSome
    · obtain ⟨k, hk⟩ := Option.isSome_iff_exists.mp hold
      have hlen : (t.eraseP isDefault).length = t.length - 1 :=
        List.length_eraseP_of_mem (List.mem_of_find?_eq_some hk) (List.find?_some hk)
      have hpos := List.length_pos_of_mem (List.mem_of_find?_eq_some hk)
      have hcount := h.count
      exact Or.inr (by omega)
    · rwa [eraseP_of_absent hold]
  · exact Or.inl (by rw [get_isSome, get_settingsSetDefault hempty hroom]; rfl)

end Tables

section Items
variable {items : List LaunchItem} {t : Table} {i j : Nat} {dir : Int}

theorem launchTitle_of_lt (hj : j < items.length) : launchTitle items j = items[j].title := by
  rw [launchTitle, List.getElem?_eq_getElem hj]
  rfl

/-- The first item with the title of item `j` is `j` itself, or an earlier one. -/
theorem launchFind_title (hj : j < items.length) :
    launchFind items (launchTitle items j) = some j ↔ First items j := by
  rw [launchFind, List.findIdx?_eq_some_iff_getElem]
  constructor
  · intro hboth k hk htitle
    obtain ⟨_, _, hfirst⟩ := hboth
    have hlt : k < items.length := hk.trans hj
    rw [launchTitle_of_lt hlt] at htitle
    exact hfirst k hk (decide_eq_true htitle)
  · intro h
    refine ⟨hj, decide_eq_true (launchTitle_of_lt hj).symm, fun k hk htitle => h k hk ?_⟩
    rw [launchTitle_of_lt (hk.trans hj)]
    exact of_decide_eq_true htitle

theorem launchFind_isSome (hj : j < items.length) :
    (launchFind items (launchTitle items j)).isSome := by
  rw [launchFind, List.findIdx?_isSome, List.any_eq_true]
  exact ⟨items[j], List.getElem_mem hj, decide_eq_true (launchTitle_of_lt hj).symm⟩

theorem launchDefault_title (hj : j < items.length)
    (ht : settingsDefault t = launchTitle items j) :
    launchDefault items t = j ↔ First items j := by
  obtain ⟨k, hk⟩ := Option.isSome_iff_exists.mp (launchFind_isSome hj)
  rw [← launchFind_title hj, launchDefault, ht, hk, Option.getD_some, Option.some_inj]

theorem launchDefault_lt (hn : 0 < items.length) (t : Table) :
    launchDefault items t < items.length := by
  rw [launchDefault]
  cases h : launchFind items (settingsDefault t) with
  | none => exact hn
  | some k => exact (List.findIdx?_eq_some_iff_getElem.mp h).1

/-- The default is the first item with its title. -/
theorem launchDefault_first (t : Table) : First items (launchDefault items t) := by
  rw [launchDefault]
  cases h : launchFind items (settingsDefault t) with
  | none => exact fun k hk => absurd hk (Nat.not_lt_zero k)
  | some j =>
    obtain ⟨hj, htitle, -⟩ := List.findIdx?_eq_some_iff_getElem.mp h
    have hsame : launchTitle items j = settingsDefault t :=
      (launchTitle_of_lt hj).trans (of_decide_eq_true htitle)
    rw [← hsame] at h
    exact (launchFind_title hj).mp h

theorem nodup_iff_first :
    (items.map LaunchItem.title).Nodup ↔ ∀ j < items.length, First items j := by
  have htitle (k : Nat) (hk : k < items.length) :
      (items.map LaunchItem.title)[k]? = some (launchTitle items k) := by
    rw [List.getElem?_map, List.getElem?_eq_getElem hk, launchTitle_of_lt hk]
    rfl
  rw [List.nodup_iff_getElem?_ne_getElem?, List.length_map]
  constructor
  · intro h j hj k hk heq
    apply h k j hk hj
    rw [htitle k (hk.trans hj), htitle j hj, heq]
  · intro h k j hk hj heq
    rw [htitle k (hk.trans hj), htitle j hj] at heq
    exact h j hj k hk (Option.some.inj heq)

def stride (n : Nat) (dir : Int) : Nat := if dir = 1 then 1 else n - 1

theorem sideTarget_eq {n : Nat} (hdir : dir = 1 ∨ dir = -1) (hi : i < n) :
    sideTarget n i dir = (i + stride n dir) % n := by
  have hnonneg : 0 ≤ (i + dir + n : Int) := by omega
  have hcast (k : Nat) : ((k : Int) % n).toNat = k % n := by
    rw [← Int.natCast_emod, Int.toNat_natCast]
  rw [sideTarget, Int.tmod_eq_emod_of_nonneg hnonneg, stride]
  obtain rfl | rfl := hdir
  · rw [if_pos rfl, Int.add_emod_right, ← Int.natCast_succ, hcast]
  · have hsum : (i + -1 + n : Int) = ((i + (n - 1) : Nat) : Int) := by omega
    rw [if_neg (by decide), hsum, hcast]

theorem sideTarget_lt {n : Nat} (hdir : dir = 1 ∨ dir = -1) (hi : i < n) :
    sideTarget n i dir < n := by
  rw [sideTarget_eq hdir hi]
  exact Nat.mod_lt _ (Nat.zero_lt_of_lt hi)

/-- With two items or more, a key leaves its item. -/
theorem sideTarget_ne {n : Nat} (hdir : dir = 1 ∨ dir = -1) (hi : i < n) (hn : 2 ≤ n) :
    sideTarget n i dir ≠ i := by
  rw [sideTarget_eq hdir hi, stride]
  intro h
  have hmod : i + (if dir = 1 then 1 else n - 1) ≡ i + 0 [MOD n] := by
    rw [Nat.ModEq, h, Nat.add_zero, Nat.mod_eq_of_lt hi]
  have hzero := Nat.ModEq.add_left_cancel' i hmod
  rw [Nat.ModEq, Nat.zero_mod] at hzero
  split at hzero
  · rw [Nat.mod_eq_of_lt (by omega)] at hzero
    omega
  · rw [Nat.mod_eq_of_lt (by omega)] at hzero
    omega

theorem stride_coprime {n : Nat} (hn : 0 < n) (dir : Int) : Nat.Coprime n (stride n dir) := by
  rw [stride]
  split
  · exact Nat.coprime_one_right n
  · exact (Nat.coprime_self_sub_right hn).mpr (Nat.coprime_one_right n)

/-- From any item, `n` strides visit every item once. -/
theorem strides_perm {n : Nat} (hn : 0 < n) (dir : Int) (i : Nat) :
    ((List.range n).map fun k => (i + (k + 1) * stride n dir) % n).Perm (List.range n) := by
  have hinj : ∀ k ∈ List.range n, ∀ l ∈ List.range n,
      (i + (k + 1) * stride n dir) % n = (i + (l + 1) * stride n dir) % n → k = l := by
    intro k hk l hl h
    have hmul : (k + 1) * stride n dir ≡ (l + 1) * stride n dir [MOD n] :=
      Nat.ModEq.add_left_cancel' i h
    have hsucc : k + 1 ≡ l + 1 [MOD n] := hmul.cancel_right_of_coprime (stride_coprime hn dir)
    have hkl : k ≡ l [MOD n] := hsucc.add_right_cancel' 1
    exact Nat.ModEq.eq_of_lt_of_lt hkl (List.mem_range.mp hk) (List.mem_range.mp hl)
  have hnodup := List.nodup_range.map_on hinj
  have hsub : ((List.range n).map fun k => (i + (k + 1) * stride n dir) % n) ⊆ List.range n := by
    intro x hx
    obtain ⟨k, -, rfl⟩ := List.mem_map.mp hx
    exact List.mem_range.mpr (Nat.mod_lt _ hn)
  exact (hnodup.subperm hsub).perm_of_length_le (by rw [List.length_map])

theorem settingsSide_default [Lvgl] (items : List LaunchItem) (t : Table) (dir : Int) :
    (settingsSide items true t OPT_DEFAULT dir).1 =
      settingsSetDefault t
        (launchTitle items (sideTarget items.length (launchDefault items t) dir)) := rfl

structure Titles (items : List LaunchItem) : Prop where
  two : 2 ≤ items.length
  fits : ∀ it ∈ items, it.title.length ≤ 95

theorem Titles.pos (h : Titles items) : 0 < items.length := Nat.lt_of_succ_lt h.two

theorem Titles.title_fits (h : Titles items) (hj : j < items.length) :
    (launchTitle items j).length ≤ 95 := by
  rw [launchTitle_of_lt hj]
  exact h.fits _ (List.getElem_mem hj)

/-- A press goes to its target, or it stores nothing. -/
theorem press_iff [Lvgl] (h : Titles items) (ht : Kept t) (hdir : dir = 1 ∨ dir = -1) :
    launchDefault items (settingsSide items true t OPT_DEFAULT dir).1 =
        sideTarget items.length (launchDefault items t) dir ↔
      First items (sideTarget items.length (launchDefault items t) dir) ∧ Room t := by
  have hlt : launchDefault items t < items.length := launchDefault_lt h.pos t
  have hne := sideTarget_ne hdir hlt h.two
  have htarget := sideTarget_lt hdir hlt
  rw [settingsSide_default]
  generalize sideTarget items.length (launchDefault items t) dir = j at hne htarget ⊢
  by_cases hroom : Room t
  · rw [launchDefault_title htarget (settingsDefault_set ht (h.title_fits htarget) hroom)]
    exact ⟨fun hfirst => ⟨hfirst, hroom⟩, And.left⟩
  · rw [settingsSetDefault_full ht hroom]
    exact ⟨fun heq => absurd heq.symm hne, fun hboth => absurd hboth.2 hroom⟩

theorem presses_kept [Lvgl] (ht : Kept t) (k : Nat) : Kept (presses items t dir k) := by
  induction k with
  | zero => exact ht
  | succ k ih => exact set_kept ih _ _ _

theorem presses_room [Lvgl] (ht : Kept t) (hroom : Room t) (k : Nat) : Room (presses items t dir k) := by
  induction k with
  | zero => exact hroom
  | succ k ih => exact settingsSetDefault_room (presses_kept ht k) ih _

theorem presses_full [Lvgl] (ht : Kept t) (hroom : ¬Room t) (k : Nat) : presses items t dir k = t := by
  induction k with
  | zero => rfl
  | succ k ih =>
    rw [presses, ih, settingsSide_default]
    exact settingsSetDefault_full ht hroom _

/-- With distinct titles, each press goes one stride further. -/
theorem presses_default [Lvgl] (h : Titles items) (ht : Kept t) (hdir : dir = 1 ∨ dir = -1)
    (hfirst : ∀ j < items.length, First items j) (hroom : Room t) (k : Nat) :
    launchDefault items (presses items t dir k) =
      (launchDefault items t + k * stride items.length dir) % items.length := by
  induction k with
  | zero =>
    rw [Nat.zero_mul, Nat.add_zero, Nat.mod_eq_of_lt (launchDefault_lt h.pos t)]
    rfl
  | succ k ih =>
    have hlt : launchDefault items (presses items t dir k) < items.length :=
      launchDefault_lt h.pos _
    have hstep := (press_iff h (presses_kept ht k) hdir).mpr
      ⟨hfirst _ (sideTarget_lt hdir hlt), presses_room ht hroom k⟩
    rw [presses, hstep, sideTarget_eq hdir hlt, ih, Nat.mod_add_mod, Nat.succ_mul, Nat.add_assoc]

theorem cycles_iff [Lvgl] (h : Titles items) (ht : Kept t) (hdir : dir = 1 ∨ dir = -1) :
    Cycles items t dir ↔ (items.map LaunchItem.title).Nodup ∧ Room t := by
  rw [nodup_iff_first]
  constructor
  · intro hboth
    obtain ⟨hperm, -⟩ := hboth
    constructor
    · intro j hj
      obtain ⟨k, -, hk⟩ := List.mem_map.mp (hperm.mem_iff.mpr (List.mem_range.mpr hj))
      exact hk ▸ launchDefault_first _
    · by_contra hroom
      have hvisit (j : Nat) (hj : j < items.length) : launchDefault items t = j := by
        obtain ⟨k, -, hk⟩ := List.mem_map.mp (hperm.mem_iff.mpr (List.mem_range.mpr hj))
        rwa [presses_full ht hroom] at hk
      have hzero := hvisit 0 h.pos
      have hone := hvisit 1 h.two
      omega
  · intro hboth
    obtain ⟨hfirst, hroom⟩ := hboth
    have hdefault := presses_default h ht hdir hfirst hroom
    constructor
    · simp only [hdefault]
      exact strides_perm h.pos dir _
    · rw [hdefault, Nat.add_mul_mod_self_left, Nat.mod_eq_of_lt (launchDefault_lt h.pos t)]

end Items

section Loaded
open Entries (modifyLast setKey finishEntry finish storeKey conclude)

def TitlesFit (es : List BootEntry) : Prop := ∀ e ∈ es, e.title.length ≤ 47

variable {es : List BootEntry}

theorem TitlesFit.modifyLast (h : TitlesFit es) {f : BootEntry → BootEntry}
    (hf : ∀ e, (f e).title = e.title) : TitlesFit (modifyLast f es) := by
  induction es with
  | nil => exact h
  | cons e es ih =>
    cases es with
    | nil =>
      intro x hx
      obtain rfl := List.mem_singleton.mp hx
      rw [hf e]
      exact h e List.mem_cons_self
    | cons e' es =>
      intro x hx
      obtain rfl | hx := List.mem_cons.mp hx
      · exact h x List.mem_cons_self
      · exact ih (fun y hy => h y (List.mem_cons_of_mem _ hy)) x hx

theorem setKey_title [Lvgl] (e : BootEntry) (name value : List Byte) :
    (setKey e name value).title = e.title := by
  rw [setKey]
  repeat (split <;> try rfl)

theorem finishEntry_title [Lvgl] (hasType : Bool) (e : BootEntry) :
    (finishEntry hasType e).title = e.title := by
  rw [finishEntry]
  repeat (split <;> try rfl)

theorem finish_titlesFit [Lvgl] {s : Entries.State} (h : TitlesFit s.entries) :
    TitlesFit (finish s).entries := by
  rw [finish]
  split
  · exact h
  · exact h.modifyLast (finishEntry_title s.hasType)

theorem onKey_titlesFit [Lvgl] (s : Entries.State) (k : Entry) (h : TitlesFit s.entries) :
    TitlesFit (Entries.onKey s k).2.entries := by
  have hkey (e : BootEntry) : (setKey e k.name k.value).title = e.title := setKey_title e _ _
  rw [Entries.onKey]
  split
  · have hfinish : TitlesFit (finish s).entries := finish_titlesFit h
    dsimp only
    split
    · exact hfinish
    · refine TitlesFit.modifyLast ?_ hkey
      intro e he
      obtain he | he := List.mem_append.mp he
      · exact hfinish e he
      · obtain rfl := List.mem_singleton.mp he
        exact lvStrlcpy_length (by decide) k.sect
  · exact h.modifyLast hkey

theorem loadedFrom_titlesFit [Lvgl] (load : Except Int (List Byte)) :
    TitlesFit (loadedFrom load).entries := by
  have hnil : TitlesFit [] := fun e he => absurd he List.not_mem_nil
  cases load with
  | error rc => exact hnil
  | ok text =>
    have hparse : TitlesFit (iniParse text Entries.onKey ⟨[], none, false⟩).2.entries :=
      iniParse_invariant (P := fun s : Entries.State => TitlesFit s.entries) Entries.onKey
        onKey_titlesFit text hnil
    rw [loadedFrom]
    generalize iniParse text Entries.onKey ⟨[], none, false⟩ = r at hparse ⊢
    obtain ⟨rc, s⟩ := r
    rw [conclude]
    split
    · exact finish_titlesFit hparse
    · split
      · exact hparse.modifyLast fun e => rfl
      · exact finish_titlesFit hparse

theorem launchReload_titles (h : TitlesFit es) : Titles (launchReload es) := by
  constructor
  · rw [launchReload, List.length_append]
    exact Nat.le_add_left _ _
  · intro it hit
    obtain hit | hit := List.mem_append.mp hit
    · obtain ⟨e, he, rfl⟩ := List.mem_map.mp hit
      exact (h e he).trans (by decide)
    · have hfixed : ∀ it ∈ launchReload [], it.title.length ≤ 95 := by decide
      exact hfixed it hit

end Loaded

/-- For any files, a press moves the default entry by one exactly if no earlier item has the title
it moves to and the table has room for the key; pressed again and again, the key goes round exactly
if all titles differ and there is room. -/
theorem default_side_iff [Lvgl] (load : Except Int (List Byte)) (d : Card) (setters : List Setter)
    {dir : Int} (hdir : dir = 1 ∨ dir = -1) :
    let items := launchReload (loadedFrom load).entries
    let t := tableAfter d setters
    let i := launchDefault items t
    let j := sideTarget items.length i dir
    ((j : Int) = (i + dir + items.length) % items.length) ∧
    (launchDefault items (settingsSide items true t OPT_DEFAULT dir).1 = j ↔
      First items j ∧ Room t) ∧
    (Cycles items t dir ↔ (items.map LaunchItem.title).Nodup ∧ Room t) := by
  intro items t i j
  have hitems : Titles items := launchReload_titles (loadedFrom_titlesFit load)
  have ht : Kept t := tableAfter_kept d setters
  refine ⟨?_, press_iff hitems ht hdir, cycles_iff hitems ht hdir⟩
  have hpos := hitems.pos
  have hnonneg : 0 ≤ (i + dir + items.length : Int) := by omega
  have hmod : 0 ≤ (i + dir + items.length : Int) % items.length := Int.emod_nonneg _ (by omega)
  simp only [j, sideTarget]
  rw [Int.tmod_eq_emod_of_nonneg hnonneg, Int.toNat_of_nonneg hmod]

def twiceText : List Byte :=
  ascii "[a]\ntype=linux\nkernel=k\n[b]\ntype=linux\nkernel=k\n[a]\ntype=linux\nkernel=l\n"

def defaultText : List Byte := ascii "[boot]\ndefault=b\n"

section Builtin
open scoped LvglText.Builtin

theorem twiceText_entries : (loadedFrom (.ok twiceText)).entries =
    [⟨ascii "a", ascii "k", [], [], []⟩, ⟨ascii "b", ascii "k", [], [], []⟩,
      ⟨ascii "a", ascii "l", [], [], []⟩] := by
  rw [loadedFrom, iniParse_outcome Entries.onKey twiceText (by decide)]
  decide

theorem defaultText_table :
    tableAfter (cardWith defaultText) [] = [⟨ascii "boot", ascii "default", ascii "b"⟩] := by
  rw [tableAfter, settingsLoad_file (cardWith_load defaultText) (by decide) (by decide)]
  decide

theorem default_side_twice :
    let items := launchReload (loadedFrom (.ok twiceText)).entries
    let t := tableAfter (cardWith defaultText) []
    let i := launchDefault items t
    let j := sideTarget items.length i 1
    ((j : Int) = (i + 1 + items.length) % items.length) ∧
    (launchDefault items (settingsSide items true t OPT_DEFAULT 1).1 = j ↔
      First items j ∧ Room t) ∧
    (Cycles items t 1 ↔ (items.map LaunchItem.title).Nodup ∧ Room t) :=
  default_side_iff (.ok twiceText) (cardWith defaultText) [] (Or.inl rfl)

/-- From b, the right key does not go to the second a but to the first one. -/
theorem default_side_skips :
    let items := launchReload (loadedFrom (.ok twiceText)).entries
    let t := tableAfter (cardWith defaultText) []
    items.length = 5 ∧ launchDefault items t = 1 ∧
      launchDefault items (settingsSide items true t OPT_DEFAULT 1).1 ≠ (1 + 1 + 5) % 5 := by
  rw [twiceText_entries, defaultText_table]
  decide

end Builtin

end AipcOs.Launch
