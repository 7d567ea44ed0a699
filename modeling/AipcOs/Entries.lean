import AipcOs.StorageSave
import AipcOs.Ini
import AipcOs.LvglText

/-! aipc-boot/entries.c: the boot entries of entries.ini, and the error of each. -/
namespace AipcOs.Entries
open ByteMemory HexText Ini Storage LvglText

def ENTRIES_MAX : Nat := 8
def TEXT_SIZE : Nat := 4096
def ENTRIES_PATH : Name := ascii "/aipc-boot/entries.ini"

structure BootEntry where
  title : List Byte
  kernel : List Byte
  cmdline : List Byte
  description : List Byte
  error : List Byte
  deriving DecidableEq

def typeText : List Byte := ascii "The type is not linux."
def noTypeText : List Byte := ascii "The entry has no type key."
def noKernelText : List Byte := ascii "The entry has no kernel key."

def lineFormat (n : Int) : List Piece :=
  [.text (ascii "Line "), .signed n, .text (ascii " of entries.ini is not valid.")]

def fullFormat : List Piece :=
  [.text (ascii "entries.ini has more than "), .signed ENTRIES_MAX, .text (ascii " entries.")]

/-- The entries read so far, and the parser's `struct parse`. A section is known by where its name
is: `some none` is the empty name before the first header. -/
structure State where
  entries : List BootEntry
  sect : Option (Option Nat)
  hasType : Bool
  deriving DecidableEq

def finishEntry [Lvgl] (hasType : Bool) (e : BootEntry) : BootEntry :=
  if e.error = [] ∧ hasType = false then { e with error := lvStrlcpy 48 noTypeText }
  else if e.error = [] ∧ e.kernel = [] then { e with error := lvStrlcpy 48 noKernelText }
  else e

def modifyLast (f : BootEntry → BootEntry) : List BootEntry → List BootEntry
  | [] => []
  | [e] => [f e]
  | e :: es => e :: modifyLast f es

def finish [Lvgl] (s : State) : State :=
  match s.sect with
  | none => s
  | some _ => { s with entries := modifyLast (finishEntry s.hasType) s.entries }

def newEntry [Lvgl] (title : List Byte) : BootEntry := ⟨lvStrlcpy 48 title, [], [], [], []⟩

def setKey [Lvgl] (e : BootEntry) (name value : List Byte) : BootEntry :=
  if name = ascii "type" then
    if value ≠ ascii "linux" then { e with error := lvStrlcpy 48 typeText } else e
  else if name = ascii "kernel" then { e with kernel := lvStrlcpy 96 value }
  else if name = ascii "cmdline" then { e with cmdline := lvStrlcpy 256 value }
  else if name = ascii "description" then { e with description := lvStrlcpy 96 value }
  else e

def storeKey [Lvgl] (s : State) (k : Entry) : State :=
  ⟨modifyLast (fun e => setKey e k.name k.value) s.entries, s.sect,
    s.hasType || decide (k.name = ascii "type")⟩

def onKey [Lvgl] (s : State) (k : Entry) : Int × State :=
  if s.sect ≠ some k.ptr then
    let s := finish s
    if s.entries.length = ENTRIES_MAX then (-1, s)
    else (0, storeKey ⟨s.entries ++ [newEntry k.sect], some k.ptr, false⟩ k)
  else (0, storeKey s k)

structure Loaded where
  entries : List BootEntry
  message : Option (List Byte)
  deriving DecidableEq

def conclude [Lvgl] : Int × State → Loaded
  | (rc, s) =>
    if rc = -1 then
      ⟨(finish s).entries, some (lvSnprintf 64 fullFormat).1⟩
    else if 0 < rc ∧ s.entries ≠ [] then
      ⟨modifyLast (fun e => { e with error := (lvSnprintf 48 (lineFormat rc)).1 }) s.entries, none⟩
    else ⟨(finish s).entries, if 0 < rc then some (lvSnprintf 64 (lineFormat rc)).1 else none⟩

def loadedFrom [Lvgl] (load : Except Int (List Byte)) : Loaded :=
  match load with
  | .error rc =>
    ⟨[], if rc = STORAGE_ENOTFOUND then none
      else if rc = STORAGE_ESIZE then some (ascii "entries.ini is empty or larger than 4 KB.")
      else some (ascii "The SD card could not read entries.ini.")⟩
  | .ok text => conclude (iniParse text onKey ⟨[], none, false⟩)

def entriesLoad [Lvgl] (d : Card) : Loaded := loadedFrom (storageLoad ENTRIES_PATH (TEXT_SIZE - 1) d)

def sectionsOf (ks : List Entry) : List (Option Nat) :=
  ks.foldl (fun ps k => if k.ptr ∈ ps then ps else ps ++ [k.ptr]) []

def keysOf (ks : List Entry) (p : Option Nat) : List Entry := ks.filter fun k => k.ptr = p

def hasType (ks : List Entry) : Bool := ks.any fun k => k.name = ascii "type"

def entryOf [Lvgl] (ks : List Entry) : BootEntry :=
  ks.foldl (fun e k => setKey e k.name k.value) (newEntry ((ks.head?.map Entry.sect).getD []))

def finishedOf [Lvgl] (ks : List Entry) : BootEntry := finishEntry (hasType ks) (entryOf ks)

theorem sectionsOf_snoc (ks : List Entry) (k : Entry) :
    sectionsOf (ks ++ [k]) =
      if k.ptr ∈ sectionsOf ks then sectionsOf ks else sectionsOf ks ++ [k.ptr] := by
  rw [sectionsOf, List.foldl_append]
  rfl

theorem mem_sectionsOf (ks : List Entry) (p : Option Nat) :
    p ∈ sectionsOf ks ↔ ∃ k ∈ ks, k.ptr = p := by
  induction ks using List.reverseRecOn with
  | nil => simp [sectionsOf]
  | append_singleton ks k ih =>
    rw [sectionsOf_snoc]
    by_cases hk : k.ptr ∈ sectionsOf ks
    · rw [if_pos hk, ih]
      constructor
      · intro hex
        obtain ⟨j, hj, hp⟩ := hex
        exact ⟨j, List.mem_append_left _ hj, hp⟩
      · intro hex
        obtain ⟨j, hj, rfl⟩ := hex
        obtain hj | hj := List.mem_append.mp hj
        · exact ⟨j, hj, rfl⟩
        · obtain rfl := List.mem_singleton.mp hj
          exact ih.mp hk
    · rw [if_neg hk, List.mem_append, ih, List.mem_singleton]
      constructor
      · intro hor
        obtain ⟨j, hj, hp⟩ | rfl := hor
        · exact ⟨j, List.mem_append_left _ hj, hp⟩
        · exact ⟨k, by simp, rfl⟩
      · intro hex
        obtain ⟨j, hj, rfl⟩ := hex
        obtain hj | hj := List.mem_append.mp hj
        · exact Or.inl ⟨j, hj, rfl⟩
        · obtain rfl := List.mem_singleton.mp hj
          exact Or.inr rfl

theorem sectionsOf_nodup (ks : List Entry) : (sectionsOf ks).Nodup := by
  induction ks using List.reverseRecOn with
  | nil => exact List.nodup_nil
  | append_singleton ks k ih =>
    rw [sectionsOf_snoc]
    split
    · exact ih
    · rename_i hk
      exact List.nodup_append.mpr ⟨ih, List.nodup_singleton _, fun a ha b hb hab =>
        hk (by rw [← List.mem_singleton.mp hb, ← hab]; exact ha)⟩

theorem keysOf_snoc_same (ks : List Entry) (k : Entry) :
    keysOf (ks ++ [k]) k.ptr = keysOf ks k.ptr ++ [k] := by
  simp [keysOf]

theorem keysOf_snoc_other (ks : List Entry) {k : Entry} {p : Option Nat} (h : k.ptr ≠ p) :
    keysOf (ks ++ [k]) p = keysOf ks p := by
  simp [keysOf, h]

theorem hasType_snoc (ks : List Entry) (k : Entry) :
    hasType (ks ++ [k]) = (hasType ks || decide (k.name = ascii "type")) := by
  simp [hasType]

theorem entryOf_snoc [Lvgl] {ks : List Entry} (hne : ks ≠ []) (k : Entry) :
    entryOf (ks ++ [k]) = setKey (entryOf ks) k.name k.value := by
  rw [entryOf, List.foldl_append, List.head?_append_of_ne_nil _ hne]
  rfl

theorem modifyLast_snoc (f : BootEntry → BootEntry) (es : List BootEntry) (e : BootEntry) :
    modifyLast f (es ++ [e]) = es ++ [f e] := by
  induction es with
  | nil => rfl
  | cons x es ih =>
    cases es with
    | nil => rfl
    | cons y es =>
      rw [List.cons_append, List.cons_append, modifyLast, ← List.cons_append, ih]
      · rfl
      · simp

def Ordered (ks : List Entry) : Prop := ks.Pairwise fun a b => rank a.ptr ≤ rank b.ptr

/-- The state after the keys `ks`: every section but the last one is finished. -/
inductive Built [Lvgl] : List Entry → State → Prop
  | start : Built [] ⟨[], none, false⟩
  | keys {ks : List Entry} {last : Entry} {ps : List (Option Nat)}
      (hlast : ks.getLast? = some last) (hps : sectionsOf ks = ps ++ [last.ptr]) :
      Built ks ⟨ps.map (fun q => finishedOf (keysOf ks q)) ++ [entryOf (keysOf ks last.ptr)],
        some last.ptr, hasType (keysOf ks last.ptr)⟩

theorem Ordered.le_last {ks : List Entry} {last : Entry} (h : Ordered ks)
    (hlast : ks.getLast? = some last) : ∀ p ∈ sectionsOf ks, rank p ≤ rank last.ptr := by
  intro p hp
  obtain ⟨j, hj, rfl⟩ := (mem_sectionsOf ks p).mp hp
  obtain ⟨front, rfl⟩ := List.getLast?_eq_some_iff.mp hlast
  unfold Ordered at h
  obtain hj | hj := List.mem_append.mp hj
  · exact (List.pairwise_append.mp h).2.2 j hj last (by simp)
  · rw [List.mem_singleton.mp hj]

/-- A key of an earlier section is a key of the last one. -/
theorem Ordered.last {ks : List Entry} {k last : Entry} (h : Ordered (ks ++ [k]))
    (hlast : ks.getLast? = some last) (hmem : k.ptr ∈ sectionsOf ks) : last.ptr = k.ptr := by
  unfold Ordered at h
  have hord := List.pairwise_append.mp h
  have hle : rank last.ptr ≤ rank k.ptr := by
    have hin : last ∈ ks := List.mem_of_getLast? hlast
    exact hord.2.2 last hin k (by simp)
  exact rank_inj (Nat.le_antisymm hle (Ordered.le_last hord.1 hlast _ hmem))

/-- The first key of a section. -/
theorem Built.first [Lvgl] {ks : List Entry} {k : Entry} {ps : List (Option Nat)}
    (hps : sectionsOf ks = ps) (hnew : k.ptr ∉ ps) :
    Built (ks ++ [k]) (storeKey ⟨ps.map (fun q => finishedOf (keysOf ks q)) ++ [newEntry k.sect],
      some k.ptr, false⟩ k) := by
  have hps' : sectionsOf (ks ++ [k]) = ps ++ [k.ptr] := by
    rw [sectionsOf_snoc, hps, if_neg hnew]
  have hkeys : keysOf (ks ++ [k]) k.ptr = [] ++ [k] := by
    rw [keysOf_snoc_same, keysOf, List.filter_eq_nil_iff.mpr]
    intro j hj hp
    rw [← hps] at hnew
    exact hnew ((mem_sectionsOf ks k.ptr).mpr ⟨j, hj, of_decide_eq_true hp⟩)
  have hother : ∀ q ∈ ps, finishedOf (keysOf (ks ++ [k]) q) = finishedOf (keysOf ks q) := by
    intro q hq
    have hqk : k.ptr ≠ q := fun h => hnew (h ▸ hq)
    rw [keysOf_snoc_other ks hqk]
  have hbuilt := Built.keys (List.getLast?_concat : (ks ++ [k]).getLast? = some k) hps'
  rw [hkeys, hasType_snoc, List.map_congr_left hother] at hbuilt
  rw [storeKey, modifyLast_snoc]
  exact hbuilt

/-- A further key of the section in force. -/
theorem Built.next [Lvgl] {ks : List Entry} {k : Entry} {ps : List (Option Nat)}
    (hps : sectionsOf ks = ps ++ [k.ptr]) :
    Built (ks ++ [k]) (storeKey
      ⟨ps.map (fun q => finishedOf (keysOf ks q)) ++ [entryOf (keysOf ks k.ptr)],
        some k.ptr, hasType (keysOf ks k.ptr)⟩ k) := by
  have hmem : k.ptr ∈ sectionsOf ks := by
    rw [hps]
    simp
  have hps' : sectionsOf (ks ++ [k]) = ps ++ [k.ptr] := by
    rw [sectionsOf_snoc, if_pos hmem, hps]
  have hne : keysOf ks k.ptr ≠ [] := by
    obtain ⟨j, hj, hp⟩ := (mem_sectionsOf ks k.ptr).mp hmem
    exact List.ne_nil_of_mem (List.mem_filter.mpr ⟨hj, decide_eq_true hp⟩)
  have hother : ∀ q ∈ ps, finishedOf (keysOf (ks ++ [k]) q) = finishedOf (keysOf ks q) := by
    intro q hq
    have hnd := sectionsOf_nodup ks
    rw [hps] at hnd
    have hqk : k.ptr ≠ q := fun h => (List.nodup_append.mp hnd).2.2 q hq k.ptr (by simp) h.symm
    rw [keysOf_snoc_other ks hqk]
  have hbuilt := Built.keys (List.getLast?_concat : (ks ++ [k]).getLast? = some k) hps'
  rw [keysOf_snoc_same, entryOf_snoc hne, hasType_snoc, List.map_congr_left hother] at hbuilt
  rw [storeKey, modifyLast_snoc]
  exact hbuilt

theorem Built.key [Lvgl] {ks : List Entry} {k : Entry} {s : State} (h : Built ks s)
    (hord : Ordered (ks ++ [k])) (hroom : (sectionsOf (ks ++ [k])).length ≤ ENTRIES_MAX) :
    (onKey s k).1 = 0 ∧ Built (ks ++ [k]) (onKey s k).2 := by
  rw [sectionsOf_snoc] at hroom
  cases h with
  | start =>
    have hnone : (none : Option (Option Nat)) ≠ some k.ptr := nofun
    have hlen : ¬([] : List BootEntry).length = ENTRIES_MAX := by decide
    rw [onKey, if_pos hnone, finish]
    simp only [if_neg hlen]
    exact ⟨trivial, Built.first (rfl : sectionsOf [] = []) List.not_mem_nil⟩
  | keys hlast hps =>
    rename_i last ps
    by_cases hsame : last.ptr = k.ptr
    · have hcont : ¬(some last.ptr ≠ some k.ptr) := by simp [hsame]
      rw [onKey, if_neg hcont, hsame]
      rw [hsame] at hps
      exact ⟨rfl, Built.next hps⟩
    · have hswitch : some last.ptr ≠ some k.ptr := by simp [hsame]
      have hnew : k.ptr ∉ sectionsOf ks := fun hmem => hsame (hord.last hlast hmem)
      rw [if_neg hnew, hps, List.length_append, List.length_append] at hroom
      have hlen : ¬(ps.map (fun q => finishedOf (keysOf ks q)) ++
          [finishEntry (hasType (keysOf ks last.ptr)) (entryOf (keysOf ks last.ptr))]).length =
            ENTRIES_MAX := by
        rw [List.length_append, List.length_map]
        simp only [List.length_singleton] at hroom ⊢
        omega
      rw [hps] at hnew
      have hfirst := Built.first hps hnew
      rw [List.map_append] at hfirst
      rw [onKey, if_pos hswitch, finish]
      simp only [modifyLast_snoc, if_neg hlen]
      exact ⟨trivial, hfirst⟩

theorem sectionsOf_length_le (ks : List Entry) (k : Entry) :
    (sectionsOf ks).length ≤ (sectionsOf (ks ++ [k])).length := by
  rw [sectionsOf_snoc]
  split
  · exact Nat.le_refl _
  · rw [List.length_append]
    exact Nat.le_add_right _ _

theorem runKeys_built [Lvgl] (ks : List Entry) (hord : Ordered ks)
    (hroom : (sectionsOf ks).length ≤ ENTRIES_MAX) :
    (runKeys onKey ks ⟨[], none, false⟩).1 = 0 ∧ Built ks (runKeys onKey ks ⟨[], none, false⟩).2 := by
  induction ks using List.reverseRecOn with
  | nil => exact ⟨rfl, Built.start⟩
  | append_singleton ks k ih =>
    have hord' : Ordered ks := (List.pairwise_append.mp hord).1
    obtain ⟨hrc, hbuilt⟩ := ih hord' ((sectionsOf_length_le ks k).trans hroom)
    have hkey := hbuilt.key hord hroom
    have hgo : ¬(runKeys onKey ks ⟨[], none, false⟩).1 ≠ 0 := by simp [hrc]
    have hrun : runKeys onKey (ks ++ [k]) ⟨[], none, false⟩ =
        onKey (runKeys onKey ks ⟨[], none, false⟩).2 k := by
      rw [runKeys_append, if_neg hgo, runKeys]
      have hlast : ¬(onKey (runKeys onKey ks ⟨[], none, false⟩).2 k).1 ≠ 0 := by simp [hkey.1]
      rw [if_neg hlast, runKeys]
      exact Prod.ext hkey.1.symm rfl
    rw [hrun]
    exact hkey

def AllLinux (ks : List Entry) : Prop :=
  ∀ k ∈ ks, k.name = ascii "type" → k.value = ascii "linux"

def kernelOf (ks : List Entry) : List Byte :=
  (((ks.filter fun k => k.name = ascii "kernel").getLast?).map Entry.value).getD []

theorem setKey_error [Lvgl] (e : BootEntry) (name value : List Byte) :
    (setKey e name value).error =
      if name = ascii "type" ∧ value ≠ ascii "linux" then lvStrlcpy 48 typeText else e.error := by
  rw [setKey]
  by_cases ht : name = ascii "type"
  · by_cases hv : value ≠ ascii "linux" <;> simp [ht, hv]
  · simp only [ht, if_false, false_and]
    repeat (split <;> try rfl)

theorem setKey_kernel [Lvgl] (e : BootEntry) (name value : List Byte) :
    (setKey e name value).kernel = if name = ascii "kernel" then lvStrlcpy 96 value else e.kernel := by
  have hne : ascii "type" ≠ ascii "kernel" := by decide
  rw [setKey]
  by_cases ht : name = ascii "type"
  · subst ht
    rw [if_pos rfl, if_neg hne]
    split <;> rfl
  · rw [if_neg ht]
    repeat (split <;> try rfl)

theorem setKeys_error [Lvgl] (ks : List Entry) (e : BootEntry) (he : e.error = []) :
    (AllLinux ks ∧ (ks.foldl (fun e k => setKey e k.name k.value) e).error = []) ∨
      (¬AllLinux ks ∧
        (ks.foldl (fun e k => setKey e k.name k.value) e).error = lvStrlcpy 48 typeText) := by
  induction ks using List.reverseRecOn with
  | nil => exact Or.inl ⟨fun k hk => (List.not_mem_nil hk).elim, he⟩
  | append_singleton ks k ih =>
    rw [List.foldl_append, List.foldl_cons, List.foldl_nil, setKey_error]
    have hall : AllLinux (ks ++ [k]) ↔
        AllLinux ks ∧ (k.name = ascii "type" → k.value = ascii "linux") := by
      simp [AllLinux, or_imp, forall_and]
    rw [hall]
    by_cases hk : k.name = ascii "type" ∧ k.value ≠ ascii "linux"
    · rw [if_pos hk]
      exact Or.inr ⟨fun h => hk.2 (h.2 hk.1), rfl⟩
    · rw [if_neg hk]
      have hval : k.name = ascii "type" → k.value = ascii "linux" := fun h => by
        by_contra hne
        exact hk ⟨h, hne⟩
      obtain ⟨hl, herr⟩ | ⟨hl, herr⟩ := ih
      · exact Or.inl ⟨⟨hl, hval⟩, herr⟩
      · exact Or.inr ⟨fun h => hl h.1, herr⟩

theorem setKeys_kernel [Lvgl] (ks : List Entry) (e : BootEntry) (he : e.kernel = []) :
    (ks.foldl (fun e k => setKey e k.name k.value) e).kernel = lvStrlcpy 96 (kernelOf ks) := by
  induction ks using List.reverseRecOn with
  | nil => exact he.trans (lvStrlcpy_fits (s := []) (by decide)).symm
  | append_singleton ks k ih =>
    rw [List.foldl_append, List.foldl_cons, List.foldl_nil, setKey_kernel, ih, kernelOf, kernelOf,
      List.filter_append]
    by_cases hk : k.name = ascii "kernel" <;> simp [hk]

theorem lineFormat_head [Lvgl] (n : Int) :
    (lvSnprintf 48 (lineFormat n)).1.head? = some (chr 'L') := by
  rw [Lvgl.snprintf_cuts _ (by decide)]
  rfl

/-- An entry of valid lines carries an error of its own keys, or none. -/
theorem finishedOf_error [Lvgl] (ks : List Entry) :
    ((finishedOf ks).error = [] ↔ AllLinux ks ∧ hasType ks = true ∧ kernelOf ks ≠ []) ∧
      ∀ n, (finishedOf ks).error ≠ (lvSnprintf 48 (lineFormat n)).1 := by
  have hkernel : (entryOf ks).kernel = lvStrlcpy 96 (kernelOf ks) := setKeys_kernel ks _ rfl
  have hnil : (entryOf ks).kernel = [] ↔ kernelOf ks = [] := by
    rw [hkernel, lvStrlcpy_eq_nil (by decide)]
  have hother {e : List Byte} (he : e.head? ≠ some (chr 'L')) (n : Int) :
      e ≠ (lvSnprintf 48 (lineFormat n)).1 := fun h => he (by rw [h, lineFormat_head])
  have hnoType : lvStrlcpy 48 noTypeText = noTypeText := lvStrlcpy_fits (by decide)
  have hnoKernel : lvStrlcpy 48 noKernelText = noKernelText := lvStrlcpy_fits (by decide)
  have htype : lvStrlcpy 48 typeText = typeText := lvStrlcpy_fits (by decide)
  rw [finishedOf, finishEntry]
  obtain ⟨hl, herr⟩ | ⟨hl, herr⟩ := setKeys_error ks (newEntry _) rfl
  · rw [← entryOf] at herr
    cases ht : hasType ks with
    | false =>
      rw [if_pos ⟨herr, rfl⟩]
      simp only [hnoType]
      exact ⟨by simp [noTypeText, ascii], hother (by decide)⟩
    | true =>
      have hno : ¬((entryOf ks).error = [] ∧ true = false) := by simp
      rw [if_neg hno]
      by_cases hk : kernelOf ks = []
      · rw [if_pos ⟨herr, hnil.mpr hk⟩]
        simp only [hnoKernel]
        exact ⟨by simp [noKernelText, ascii, hk], hother (by decide)⟩
      · have hke : ¬((entryOf ks).error = [] ∧ (entryOf ks).kernel = []) := fun h => hk (hnil.mp h.2)
        rw [if_neg hke, herr]
        exact ⟨by simp [hl, hk], hother (by simp)⟩
  · rw [← entryOf] at herr
    rw [htype] at herr
    have hne : (entryOf ks).error ≠ [] := by
      rw [herr]
      decide
    have hno (b : Prop) : ¬((entryOf ks).error = [] ∧ b) := fun h => hne h.1
    rw [if_neg (hno _), if_neg (hno _), herr]
    exact ⟨by simp [hl, typeText, ascii], hother (by decide)⟩

/-- The error of the entry of section `p` tells of that section, and of no other's line. -/
structure Attributed [Lvgl] (text : List Byte) (p : Option Nat) (e : BootEntry) : Prop where
  own : e.error = [] ↔ (∀ s, stop text = some s → s.sec.ptr ≠ p) ∧
    AllLinux (keysOf (entries text) p) ∧ hasType (keysOf (entries text) p) = true ∧
      kernelOf (keysOf (entries text) p) ≠ []
  others : ∀ s, stop text = some s → s.sec.ptr ≠ p → e.error ≠ (lvSnprintf 48 (lineFormat s.line)).1

/-- The parse stops inside a section that has no key yet, behind one that has. -/
def Misplaced (text : List Byte) : Prop :=
  ∃ s, stop text = some s ∧ s.sec.ptr ∉ sectionsOf (entries text) ∧ sectionsOf (entries text) ≠ []

instance (text : List Byte) : Decidable (Misplaced text) :=
  decidable_of_iff ((stop text).any fun s => decide (s.sec.ptr ∉ sectionsOf (entries text)) &&
    decide (sectionsOf (entries text) ≠ []) = true) (by
      simp [Misplaced, Option.any_eq_true])

/-- The line that stops the parse is in the section of the last key, or in a later one. -/
theorem stop_rank {text : List Byte} {s : Stop} (hs : stop text = some s) :
    ∀ p ∈ sectionsOf (entries text), rank p ≤ rank s.sec.ptr := by
  intro p hp
  obtain ⟨k, hk, rfl⟩ := (mem_sectionsOf _ p).mp hp
  exact ((entriesFrom_ranks (linesOf text) 0 0 noSection (Nat.le_refl 0)).2.2 s hs).2 k hk

theorem ordered_entries (text : List Byte) : Ordered (entries text) :=
  (entriesFrom_ranks (linesOf text) 0 0 noSection (Nat.le_refl 0)).2.1

theorem finished_attributed [Lvgl] {text : List Byte} {p : Option Nat}
    (hp : ∀ s, stop text = some s → s.sec.ptr ≠ p) :
    Attributed text p (finishedOf (keysOf (entries text) p)) := by
  obtain ⟨hown, hline⟩ := finishedOf_error (keysOf (entries text) p)
  refine ⟨?_, fun s _ _ => hline s.line⟩
  rw [hown]
  exact ⟨fun h => ⟨hp, h⟩, fun h => h.2⟩

/-- The last entry takes the line's message, which is its own only in its own section. -/
theorem stopped_attributed_iff [Lvgl] {text : List Byte} {s : Stop} (hs : stop text = some s)
    (p : Option Nat) (e : BootEntry) :
    Attributed text p { e with error := (lvSnprintf 48 (lineFormat s.line)).1 } ↔ s.sec.ptr = p := by
  constructor
  · intro h
    by_contra hne
    exact h.others s hs hne rfl
  · intro heq
    obtain rfl := heq
    refine ⟨?_, fun s' hs' hne => ?_⟩
    · have hline : (lvSnprintf 48 (lineFormat s.line)).1 ≠ [] := by
        intro h
        have hhead := lineFormat_head s.line
        rw [h] at hhead
        cases hhead
      exact ⟨fun h => (hline h).elim, fun h => (h.1 s hs rfl).elim⟩
    · rw [hs] at hs'
      cases hs'
      exact absurd rfl hne

theorem forall₂_map_snoc {α β : Type*} {R : α → β → Prop} {f : α → β} {as : List α}
    (h : ∀ a ∈ as, R a (f a)) (a : α) (b : β) :
    List.Forall₂ R (as ++ [a]) (as.map f ++ [b]) ↔ R a b := by
  induction as with
  | nil => simp
  | cons x as ih =>
    rw [List.map_cons, List.cons_append, List.cons_append, List.forall₂_cons,
      ih fun a ha => h a (List.mem_cons_of_mem _ ha)]
    exact ⟨fun hr => hr.2, fun hr => ⟨h x List.mem_cons_self, hr⟩⟩

theorem conclude_finish [Lvgl] {s : State} : (conclude (0, s)).entries = (finish s).entries := by
  have hno : ¬(0 : Int) = -1 := by decide
  have hpos : ¬((0 : Int) < 0 ∧ s.entries ≠ []) := fun h => absurd h.1 (by decide)
  rw [conclude, if_neg hno, if_neg hpos]

theorem conclude_line [Lvgl] {s : State} {n : Nat} (hn : 0 < n) (hs : s.entries ≠ []) :
    (conclude ((n : Int), s)).entries =
      modifyLast (fun e => { e with error := (lvSnprintf 48 (lineFormat n)).1 }) s.entries := by
  have hno : ¬(n : Int) = -1 := by omega
  have hpos : (0 : Int) < n ∧ s.entries ≠ [] := ⟨by omega, hs⟩
  rw [conclude, if_neg hno, if_pos hpos]

theorem conclude_start [Lvgl] {rc : Int} : (conclude (rc, ⟨[], none, false⟩)).entries = [] := by
  have hpos : ¬(0 < rc ∧ ([] : List BootEntry) ≠ []) := fun h => h.2 rfl
  by_cases hrc : rc = -1
  · rw [conclude, if_pos hrc]
    rfl
  · rw [conclude, if_neg hrc, if_neg hpos]
    rfl

theorem loadedFrom_ok [Lvgl] (text : List Byte) (hz : 0 ∉ text)
    (hroom : (sectionsOf (entries text)).length ≤ ENTRIES_MAX) :
    ∃ s, Built (entries text) s ∧ loadedFrom (.ok text) =
      conclude (((stop text).map fun s => (s.line : Int)).getD 0, s) := by
  obtain ⟨hrc, hbuilt⟩ := runKeys_built (entries text) (ordered_entries text) hroom
  have hgo : ¬(runKeys onKey (entries text) ⟨[], none, false⟩).1 ≠ 0 := by simp [hrc]
  refine ⟨_, hbuilt, ?_⟩
  rw [loadedFrom, iniParse_outcome onKey text hz, outcome, outcomeOf, if_neg hgo]

/-- The line that stops the parse is in the last section with keys, or in none of them. -/
theorem misplaced_iff {text : List Byte} {s : Stop} {last : Entry} (hs : stop text = some s)
    (hlast : (entries text).getLast? = some last) : ¬Misplaced text ↔ s.sec.ptr = last.ptr := by
  have hmem : last.ptr ∈ sectionsOf (entries text) :=
    (mem_sectionsOf _ _).mpr ⟨last, List.mem_of_getLast? hlast, rfl⟩
  constructor
  · intro h
    by_contra hne
    refine h ⟨s, hs, fun hin => hne ?_, List.ne_nil_of_mem hmem⟩
    exact rank_inj (Nat.le_antisymm ((ordered_entries text).le_last hlast _ hin)
      (stop_rank hs _ hmem))
  · intro h hex
    obtain ⟨s', hs', hout, -⟩ := hex
    rw [hs] at hs'
    cases hs'
    exact hout (h ▸ hmem)

theorem errors_attributed_iff [Lvgl] (text : List Byte) (hz : 0 ∉ text)
    (hroom : (sectionsOf (entries text)).length ≤ ENTRIES_MAX) :
    List.Forall₂ (Attributed text) (sectionsOf (entries text)) (loadedFrom (.ok text)).entries ↔
      ¬Misplaced text := by
  obtain ⟨state, hbuilt, hload⟩ := loadedFrom_ok text hz hroom
  have hord := ordered_entries text
  have hnd := sectionsOf_nodup (entries text)
  rw [hload]
  generalize hks : entries text = ks at hbuilt
  cases hbuilt with
  | start =>
    have hsec : sectionsOf (entries text) = [] := by
      rw [hks]
      rfl
    rw [← hks, hsec, conclude_start]
    exact ⟨fun _ ⟨_, _, _, hne⟩ => hne hsec, fun _ => List.Forall₂.nil⟩
  | keys hlast hps =>
    rename_i last ps
    subst hks
    rw [hps]
    cases hs : stop text with
    | none =>
      have hnever (p : Option Nat) : ∀ s, stop text = some s → s.sec.ptr ≠ p := by
        intro s hs'
        rw [hs] at hs'
        cases hs'
      rw [Option.map_none, Option.getD_none, conclude_finish, finish]
      simp only [modifyLast_snoc]
      rw [forall₂_map_snoc fun q _ => finished_attributed (hnever q)]
      refine ⟨fun _ => ?_, fun _ => finished_attributed (hnever _)⟩
      intro hex
      obtain ⟨s, hs', -⟩ := hex
      exact hnever _ s hs' rfl
    | some s =>
      have hbefore : ∀ q ∈ ps, Attributed text q (finishedOf (keysOf (entries text) q)) := by
        intro q hq
        apply finished_attributed
        intro s' hs' heq
        rw [hps] at hnd
        refine (List.nodup_append.mp hnd).2.2 q hq last.ptr (by simp) ?_
        have hin : q ∈ sectionsOf (entries text) := by
          rw [hps]
          exact List.mem_append_left _ hq
        have hlastin : last.ptr ∈ sectionsOf (entries text) := by
          rw [hps]
          simp
        have hge := stop_rank hs' _ hlastin
        rw [heq] at hge
        exact rank_inj (Nat.le_antisymm (hord.le_last hlast _ hin) hge)
      have hne : ps.map (fun q => finishedOf (keysOf (entries text) q)) ++
          [entryOf (keysOf (entries text) last.ptr)] ≠ [] := by simp
      rw [Option.map_some, Option.getD_some,
        conclude_line ((Nat.zero_le _).trans_lt (stopFrom_line hs)) hne, modifyLast_snoc,
        forall₂_map_snoc hbefore, stopped_attributed_iff hs, misplaced_iff hs hlast]

section Builtin
open scoped LvglText.Builtin

theorem errors_attributed_two_sections :
    0 ∉ ascii "[a]\ntype=linux\nkernel=k\n[b]\ntype=bsd\n!" ∧
      List.Forall₂ (Attributed (ascii "[a]\ntype=linux\nkernel=k\n[b]\ntype=bsd\n!"))
        (sectionsOf (entries (ascii "[a]\ntype=linux\nkernel=k\n[b]\ntype=bsd\n!")))
        (loadedFrom (.ok (ascii "[a]\ntype=linux\nkernel=k\n[b]\ntype=bsd\n!"))).entries :=
  ⟨by decide, (errors_attributed_iff _ (by decide) (by decide)).mpr (by decide)⟩

def keylessStop : List Byte := ascii "[a]\ntype=linux\nkernel=k\n[b]\n!"

/-- Entry a is complete, and gets the error of a line of section b. -/
theorem errors_misattributed :
    (sectionsOf (entries keylessStop)).length ≤ ENTRIES_MAX ∧
      ¬List.Forall₂ (Attributed keylessStop) (sectionsOf (entries keylessStop))
        (loadedFrom (.ok keylessStop)).entries := by
  have hload : (loadedFrom (.ok keylessStop)).entries =
      [⟨ascii "a", ascii "k", [], [], (lvSnprintf 48 (lineFormat 5)).1⟩] := by
    rw [loadedFrom, iniParse_outcome onKey keylessStop (by decide)]
    decide
  have hsec : sectionsOf (entries keylessStop) = [some 1] := by decide
  have hstop : stop keylessStop = some ⟨5, some 25, ascii "b"⟩ := by decide
  refine ⟨by decide, fun h => ?_⟩
  rw [hload, hsec, List.forall₂_cons] at h
  exact h.1.others _ hstop (by decide) rfl

end Builtin

end AipcOs.Entries
