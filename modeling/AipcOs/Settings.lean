import AipcOs.Ini
import AipcOs.LvglText
import AipcOs.StorageSave

/-! aipc-boot/settings.c: the table of keys, its setters, and its file. -/
namespace AipcOs.Settings
open ByteMemory HexText Ini Storage LvglText
variable [Lvgl]

def TEXT_MAX : Nat := 4096
def KEYS_MAX : Nat := 32
def BACKLIGHT_MIN : Nat := 10

def SETTINGS_PATH : Name := ascii "/aipc-boot/settings.ini"

structure Key where
  sect : List Byte
  name : List Byte
  value : List Byte
  deriving DecidableEq

abbrev Table := List Key

def Key.is (sect name : List Byte) (k : Key) : Bool := k.sect = sect ∧ k.name = name

def find (t : Table) (sect name : List Byte) : Option Key := t.find? (Key.is sect name)

def get (t : Table) (sect name : List Byte) : Option (List Byte) :=
  (find t sect name).map Key.value

def overwrite (sect name value : List Byte) : Table → Table
  | [] => []
  | k :: ks =>
    if k.is sect name then { k with value := lvStrlcpy 96 value } :: ks
    else k :: overwrite sect name value ks

def set (t : Table) (sect name : List Byte) (value : Option (List Byte)) : Table :=
  match value with
  | none => t.eraseP (Key.is sect name)
  | some value =>
    if (find t sect name).isSome then overwrite sect name value t
    else if t.length = KEYS_MAX then t
    else t ++ [⟨lvStrlcpy 24 sect, lvStrlcpy 32 name, lvStrlcpy 96 value⟩]

def setUint (t : Table) (sect name : List Byte) (v : Word) : Table :=
  set t sect name (some (lvSnprintf 12 [.unsigned v]).1)

def settingsSetDefault (t : Table) (title : List Byte) : Table :=
  set t (ascii "boot") (ascii "default") (if title = [] then none else some title)

def settingsSetTimeout (t : Table) (s : Word) : Table :=
  if s ≠ 0 then setUint t (ascii "boot") (ascii "timeout") s
  else set t (ascii "boot") (ascii "timeout") none

def settingsSetBacklight (t : Table) (percent : Word) : Table :=
  if BACKLIGHT_MIN ≤ percent.toNat ∧ percent.toNat ≤ 100 then
    setUint t (ascii "display") (ascii "backlight") percent
  else set t (ascii "display") (ascii "backlight") none

def settingsSetDark (t : Table) (on : Bool) : Table :=
  set t (ascii "display") (ascii "theme") (some (if on then ascii "dark" else ascii "light"))

def settingsSetCfw (t : Table) (id : List Byte) (on : Bool) : Table :=
  set t (ascii "cfw") id (some (if on then ascii "on" else ascii "off"))

def settingsReset : Table := []

def parseUint (n : Word) : List Byte → Option Word
  | [] => some n
  | c :: cs =>
    if c < chr '0' ∨ chr '9' < c ∨ 100000 < n then none
    else parseUint (n * 10 + (c - chr '0').setWidth 32) cs

/-- The default if the value is missing or is not a number in range. -/
def getUint (t : Table) (sect name : List Byte) (min max default : Word) : Word :=
  match get t sect name with
  | none => default
  | some s =>
    if s = [] then default
    else
      match parseUint 0 s with
      | none => default
      | some n => if min ≤ n ∧ n ≤ max then n else default

def settingsDefault (t : Table) : List Byte := (get t (ascii "boot") (ascii "default")).getD []

def settingsTimeout (t : Table) : Word := getUint t (ascii "boot") (ascii "timeout") 1 100000 15

def settingsBacklight (t : Table) : Word :=
  getUint t (ascii "display") (ascii "backlight") (BitVec.ofNat 32 BACKLIGHT_MIN) 100 100

def settingsDark (t : Table) : Bool :=
  get t (ascii "display") (ascii "theme") = some (ascii "dark")

inductive Setter where
  | default (title : List Byte)
  | timeout (s : Word)
  | backlight (percent : Word)
  | dark (on : Bool)
  | cfw (id : List Byte) (on : Bool)
  | reset

def Setter.run (t : Table) : Setter → Table
  | .default title => settingsSetDefault t title
  | .timeout s => settingsSetTimeout t s
  | .backlight percent => settingsSetBacklight t percent
  | .dark on => settingsSetDark t on
  | .cfw id on => settingsSetCfw t id on
  | .reset => settingsReset

def onKey (t : Table) (e : Entry) : Int × Table := (0, set t e.sect e.name (some e.value))

/-- A line that is not valid stops the parse; the keys before it count. -/
def settingsLoad (d : Card) : Table :=
  match storageLoad SETTINGS_PATH (TEXT_MAX - 1) d with
  | .error _ => settingsReset
  | .ok text => (iniParse text onKey settingsReset).2

/-- What the calls of lv_snprintf put into the buffer, and the length they would need. -/
structure Text where
  bytes : List Byte
  len : Nat
  deriving DecidableEq

/-- The size argument, a uint32_t. -/
def room (len : Nat) : Nat := (BitVec.ofNat 32 TEXT_MAX - BitVec.ofNat 32 len).toNat

def Text.print (out : Text) (format : List Piece) : Text :=
  let count := lvSnprintf (room out.len) format
  ⟨out.bytes ++ count.1, out.len + count.2⟩

def keyFormat (k : Key) : List Piece :=
  [.string k.name, .text (ascii "="), .string k.value, .text (ascii "\n")]

def headerFormat (sect : List Byte) : List Piece :=
  [.text (ascii "["), .string sect, .text (ascii "]\n")]

def saveGroup (sect : List Byte) : Table → Text → Text
  | [], out => out
  | k :: ks, out =>
    if TEXT_MAX ≤ out.len then out
    else if k.sect = sect then saveGroup sect ks (out.print (keyFormat k))
    else saveGroup sect ks out

def seen (before : Table) (sect : List Byte) : Bool := before.any fun j => j.sect = sect

def saveFrom (before : Table) : Table → Text → Except Int Text
  | [], out => .ok out
  | k :: ks, out =>
    if seen before k.sect then saveFrom (before ++ [k]) ks out
    else
      let out := if k.sect ≠ [] then out.print (headerFormat k.sect) else out
      let out := saveGroup k.sect (k :: ks) out
      if TEXT_MAX ≤ out.len then .error STORAGE_ESIZE else saveFrom (before ++ [k]) ks out

def settingsSave (t : Table) (F : Faults) (d : Card) : Exit × Card :=
  match saveFrom [] t ⟨[], 0⟩ with
  | .error rc => (.returned rc, d)
  | .ok out => storageSave SETTINGS_PATH out.bytes F d

def CFW_IDS : List (List Byte) :=
  [ascii "battery_check_skip", ascii "diag", ascii "power_hold", ascii "rtc_stall_fix"]

/-- The title of an entry is a section of entries.ini in a field of 48 bytes. -/
def EntryTitle (title : List Byte) : Prop :=
  ∃ text, 0 ∉ text ∧ text.length ≤ 4095 ∧ ∃ e ∈ entries text, title = lvStrlcpy 48 e.sect

def Setter.Legal : Setter → Prop
  | .default title => EntryTitle title
  | .cfw id _ => id ∈ CFW_IDS
  | _ => True

structure Key.Sound (k : Key) : Prop where
  sect : SectText k.sect
  name : NameText k.name
  value : Inline k.value
  sect_fits : k.sect.length ≤ 23
  name_fits : k.name.length ≤ 31
  value_fits : k.value.length ≤ 95

structure Sound (t : Table) : Prop where
  keys : ∀ k ∈ t, k.Sound
  count : t.length ≤ KEYS_MAX

theorem Key.Sound.copied {k : Key} (h : k.Sound) :
    lvStrlcpy 24 k.sect = k.sect ∧ lvStrlcpy 32 k.name = k.name ∧ lvStrlcpy 96 k.value = k.value :=
  ⟨lvStrlcpy_fits (Nat.lt_succ_of_le h.sect_fits), lvStrlcpy_fits (Nat.lt_succ_of_le h.name_fits),
    lvStrlcpy_fits (Nat.lt_succ_of_le h.value_fits)⟩

theorem overwrite_length (sect name value : List Byte) (t : Table) :
    (overwrite sect name value t).length = t.length := by
  induction t with
  | nil => rfl
  | cons k ks ih =>
    rw [overwrite]
    split
    · rfl
    · rw [List.length_cons, ih, List.length_cons]

theorem overwrite_keys {sect name value : List Byte} (hv : Inline value) {t : Table}
    (ht : ∀ k ∈ t, k.Sound) : ∀ k ∈ overwrite sect name value t, k.Sound := by
  induction t with
  | nil => exact ht
  | cons k ks ih =>
    have hk := ht k List.mem_cons_self
    have hks : ∀ j ∈ ks, j.Sound := fun j hj => ht j (List.mem_cons_of_mem _ hj)
    rw [overwrite]
    split
    · intro j hj
      obtain rfl | hj := List.mem_cons.mp hj
      · exact { hk with
          value := hv.of_isPrefix (lvStrlcpy_isPrefix (by decide) _)
          value_fits := lvStrlcpy_length (by decide) value }
      · exact hks j hj
    · intro j hj
      obtain rfl | hj := List.mem_cons.mp hj
      · exact hk
      · exact ih hks j hj

theorem set_sound {t : Table} {sect name : List Byte} {value : Option (List Byte)} (ht : Sound t)
    (hs : SectText sect) (hn : NameText name) (hv : ∀ v, value = some v → Inline v) :
    Sound (set t sect name value) := by
  cases value with
  | none =>
    exact ⟨fun k hk => ht.keys k (List.mem_of_mem_eraseP hk),
      Nat.le_trans List.length_eraseP_le ht.count⟩
  | some v =>
    have hv := hv v rfl
    rw [set]
    split
    · exact ⟨overwrite_keys hv ht.keys, by rw [overwrite_length]; exact ht.count⟩
    · split
      · exact ht
      · rename_i hroom
        refine ⟨?_, ?_⟩
        · intro k hk
          obtain hk | hk := List.mem_append.mp hk
          · exact ht.keys k hk
          · obtain rfl := List.mem_singleton.mp hk
            exact ⟨hs.of_isPrefix (lvStrlcpy_isPrefix (by decide) _),
              hn.of_isPrefix (lvStrlcpy_isPrefix (by decide) _),
              hv.of_isPrefix (lvStrlcpy_isPrefix (by decide) _), lvStrlcpy_length (by decide) sect,
              lvStrlcpy_length (by decide) name, lvStrlcpy_length (by decide) v⟩
        · have := ht.count
          rw [List.length_append, List.length_singleton]
          omega

theorem foldl_set_sound {es : List Entry}
    (hes : ∀ e ∈ es, SectText e.sect ∧ NameText e.name ∧ Inline e.value) {t : Table} (ht : Sound t) :
    Sound (es.foldl (fun t e => (onKey t e).2) t) := by
  induction es generalizing t with
  | nil => exact ht
  | cons e es ih =>
    obtain ⟨hs, hn, hv⟩ := hes e List.mem_cons_self
    have hset : Sound (set t e.sect e.name (some e.value)) :=
      set_sound ht hs hn (by intro v hsame; cases hsame; exact hv)
    exact ih (fun e he => hes e (List.mem_cons_of_mem _ he)) hset

omit [Lvgl] in
theorem sound_nil : Sound [] := ⟨by simp, Nat.zero_le _⟩

theorem parse_entries {text : List Byte} (hz : 0 ∉ text) (t : Table) :
    (iniParse text onKey t).2 = (entries text).foldl (fun t e => (onKey t e).2) t := by
  rw [iniParse_eq onKey text hz]
  exact grammar_foldl (fun _ _ => rfl) _ _ _ _ _

theorem settingsLoad_sound {d : Card}
    (hz : ∀ c, storageLoad SETTINGS_PATH (TEXT_MAX - 1) d = .ok c → 0 ∉ c) :
    Sound (settingsLoad d) := by
  unfold settingsLoad
  split
  · exact sound_nil
  · rename_i text hload
    have hz := hz text hload
    rw [parse_entries hz]
    exact foldl_set_sound (entries_text hz) sound_nil

omit [Lvgl] in
theorem digit_inline {d : Char} (h : d.isDigit) :
    chr d ≠ 0 ∧ chr d ≠ chr '\n' ∧ isBlank (chr d) = false := by
  obtain ⟨hlo, hhi⟩ : 48 ≤ d.toNat ∧ d.toNat ≤ 57 := Char.isDigit_iff_toNat.mp h
  unfold chr
  generalize d.toNat = n at hlo hhi
  interval_cases n <;> decide

theorem uintText_inline (v : Word) : Inline (lvSnprintf 12 [.unsigned v]).1 := by
  have hdigit : ∀ c ∈ decimal v.toNat, c ≠ 0 ∧ c ≠ chr '\n' ∧ isBlank c = false := by
    intro c hc
    obtain ⟨d, hd, rfl⟩ := List.mem_map.mp hc
    exact digit_inline (Nat.isDigit_of_mem_toDigits (by decide) (by decide) hd)
  have hall : Inline (decimal v.toNat) :=
    ⟨fun h => (hdigit _ h).1 rfl, fun h => (hdigit _ h).2.1 rfl,
      fun c hc => (hdigit c (List.mem_of_mem_head? hc)).2.2⟩
  have hshown : shown [.unsigned v] = decimal v.toNat := List.append_nil _
  exact hall.of_isPrefix (hshown ▸ lvSnprintf_isPrefix (by decide) _)

theorem EntryTitle.inline {title : List Byte} (h : EntryTitle title) : Inline title := by
  obtain ⟨text, hz, -, e, he, rfl⟩ := h
  exact (entries_text hz e he).1.1.of_isPrefix (lvStrlcpy_isPrefix (by decide) _)

theorem setter_sound {t : Table} (ht : Sound t) {s : Setter} (hs : s.Legal) : Sound (s.run t) := by
  have hboot : SectText (ascii "boot") := by decide
  have hdisplay : SectText (ascii "display") := by decide
  have hnone : ∀ v, (none : Option (List Byte)) = some v → Inline v := by simp
  cases s with
  | default title =>
    refine set_sound ht hboot (by decide) ?_
    intro v hv
    split at hv
    · cases hv
    · cases hv
      exact EntryTitle.inline hs
  | timeout s =>
    rw [Setter.run, settingsSetTimeout]
    split
    · exact set_sound ht hboot (by decide) (by intro v hsame; cases hsame; exact uintText_inline s)
    · exact set_sound ht hboot (by decide) hnone
  | backlight percent =>
    rw [Setter.run, settingsSetBacklight]
    split
    · exact set_sound ht hdisplay (by decide)
        (by intro v hsame; cases hsame; exact uintText_inline percent)
    · exact set_sound ht hdisplay (by decide) hnone
  | dark on =>
    rw [Setter.run, settingsSetDark]
    refine set_sound ht hdisplay (by decide) ?_
    intro v hsame
    cases hsame
    cases on <;> decide
  | cfw id on =>
    have hid : ∀ id ∈ CFW_IDS, NameText id := by decide
    rw [Setter.run, settingsSetCfw]
    refine set_sound ht (by decide) (hid id hs) ?_
    intro v hsame
    cases hsame
    cases on <;> decide
  | reset => exact sound_nil

theorem setters_sound {t : Table} (ht : Sound t) (setters : List Setter)
    (hs : ∀ s ∈ setters, s.Legal) : Sound (setters.foldl Setter.run t) := by
  induction setters generalizing t with
  | nil => exact ht
  | cons s setters ih =>
    exact ih (setter_sound ht (hs s List.mem_cons_self)) fun x hx => hs x (List.mem_cons_of_mem _ hx)

end AipcOs.Settings
