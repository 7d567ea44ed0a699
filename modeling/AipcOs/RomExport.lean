import AipcOs.OffsetTable
import AipcOs.RomModule

/-! An export directory read through its RVAs, from a blob loaded at some base, and what
relocated_export_blob keeps of that reading. -/
namespace AipcOs.RomModule
open ByteMemory OffsetTable StructBytes

/-- What a loader takes from an export directory. -/
structure ExportView where
  ordinal_base : Nat
  name : List Byte
  names : List (List Byte)
  ordinals : List Nat
  functions : List Nat
  deriving DecidableEq

/-- The offset of `n` bytes at an RVA, if the blob holds them all. -/
def rvaOffset (b : List Byte) (base rva n : Nat) : Option Nat :=
  if base ≤ rva ∧ rva - base + n ≤ b.length then some (rva - base) else none

def readString (b : List Byte) (base rva : Nat) : Option (List Byte) := do
  let off ← rvaOffset b base rva 1
  let s := (b.drop off).takeWhile (· ≠ 0)
  if off + s.length < b.length then some s else none

def readExport (b : List Byte) (base : Nat) : Option ExportView :=
  if b.length < 0x28 then none
  else do
    let h := exportHeader b 0
    let name ← readString b base h.name_rva
    let functionTable ← rvaOffset b base h.function_table_rva (h.function_count * 4)
    let nameTable ← rvaOffset b base h.name_table_rva (h.name_count * 4)
    let ordinalTable ← rvaOffset b base h.ordinal_table_rva (h.name_count * 2)
    let names ← (List.range h.name_count).mapM fun i => readString b base (u32 b (nameTable + i * 4))
    return {
      ordinal_base := h.ordinal_base
      name
      names
      ordinals := (List.range h.name_count).map fun i => u16 b (ordinalTable + i * 2)
      functions := (List.range h.function_count).map fun i => u32 b (functionTable + i * 4) }

structure StringAt (b : List Byte) (base rva : Nat) (s : List Byte) : Prop where
  base_le : base ≤ rva
  bytes : slice b (rva - base) (s.length + 1) = s ++ [0]
  plain : 0 ∉ s

theorem StringAt.fits {b s : List Byte} {base rva : Nat} (h : StringAt b base rva s) :
    rva - base + (s.length + 1) ≤ b.length :=
  slice_fits h.bytes (by simp) (Nat.succ_ne_zero _)

theorem StringAt.read {b s : List Byte} {base rva : Nat} (h : StringAt b base rva s) :
    readString b base rva = some s := by
  have hfit := h.fits
  have hdrop : b.drop (rva - base) = s ++ 0 :: b.drop (rva - base + (s.length + 1)) := by
    have hsplit := List.take_append_drop (s.length + 1) (b.drop (rva - base))
    have hbytes : (b.drop (rva - base)).take (s.length + 1) = s ++ [0] := h.bytes
    rw [hbytes, List.drop_drop, List.append_assoc] at hsplit
    exact hsplit.symm
  have hwhile : (b.drop (rva - base)).takeWhile (· ≠ 0) = s := by
    rw [hdrop, List.takeWhile_append_of_pos]
    · simp
    · intro x hx
      have hne : x ≠ 0 := fun h0 => h.plain (h0 ▸ hx)
      simpa using hne
  simp only [readString, rvaOffset, h.base_le, true_and]
  rw [if_pos (by omega)]
  simp only [Option.bind_eq_bind, Option.bind_some, hwhile]
  rw [if_pos (by omega)]

structure Laid (b : List Byte) (base : Nat) (v : ExportView) : Prop where
  header : 0x28 ≤ b.length
  ordinal_base : (exportHeader b 0).ordinal_base = v.ordinal_base
  name : StringAt b base (exportHeader b 0).name_rva v.name
  function_table : rvaOffset b base (exportHeader b 0).function_table_rva
    ((exportHeader b 0).function_count * 4) = some ((exportHeader b 0).function_table_rva - base)
  name_table : rvaOffset b base (exportHeader b 0).name_table_rva
    ((exportHeader b 0).name_count * 4) = some ((exportHeader b 0).name_table_rva - base)
  ordinal_table : rvaOffset b base (exportHeader b 0).ordinal_table_rva
    ((exportHeader b 0).name_count * 2) = some ((exportHeader b 0).ordinal_table_rva - base)
  functions : v.functions = (List.range (exportHeader b 0).function_count).map fun i =>
    u32 b ((exportHeader b 0).function_table_rva - base + i * 4)
  ordinals : v.ordinals = (List.range (exportHeader b 0).name_count).map fun i =>
    u16 b ((exportHeader b 0).ordinal_table_rva - base + i * 2)
  count : v.names.length = (exportHeader b 0).name_count
  names : ∀ (i : Nat) (s : List Byte), v.names[i]? = some s →
    StringAt b base (u32 b ((exportHeader b 0).name_table_rva - base + i * 4)) s

def nameRegions (b : List Byte) (base : Nat) (names : List (List Byte)) : List (Nat × Nat) :=
  names.zipIdx.map fun p =>
    (u32 b ((exportHeader b 0).name_table_rva - base + p.2 * 4) - base, p.1.length + 1)

def bodyRegions (b : List Byte) (base : Nat) (name : List Byte) (names : List (List Byte)) :
    List (Nat × Nat) :=
  ((exportHeader b 0).name_rva - base, name.length + 1) ::
    ((exportHeader b 0).function_table_rva - base, (exportHeader b 0).function_count * 4) ::
    ((exportHeader b 0).ordinal_table_rva - base, (exportHeader b 0).name_count * 2) ::
    nameRegions b base names

def regions (b : List Byte) (base : Nat) (name : List Byte) (names : List (List Byte)) :
    List (Nat × Nat) :=
  (0, 0x28) :: ((exportHeader b 0).name_table_rva - base, (exportHeader b 0).name_count * 4) ::
    bodyRegions b base name names

theorem Laid.read {b : List Byte} {base : Nat} {v : ExportView} (h : Laid b base v) :
    readExport b base = some v := by
  have hnames : (List.range (exportHeader b 0).name_count).mapM
      (fun i => readString b base (u32 b ((exportHeader b 0).name_table_rva - base + i * 4))) =
      some v.names := by
    rw [mapM_eq_some_iff]
    apply List.ext_getElem?
    intro i
    rw [List.getElem?_map, List.getElem?_map]
    by_cases hi : i < (exportHeader b 0).name_count
    · have hi' : i < v.names.length := h.count.symm ▸ hi
      rw [List.getElem?_range hi, List.getElem?_eq_getElem hi', Option.map_some, Option.map_some,
        (h.names i _ (List.getElem?_eq_getElem hi')).read]
    · rw [List.getElem?_eq_none (by simpa using hi),
        List.getElem?_eq_none (by rw [h.count]; omega)]
      rfl
  rw [readExport, if_neg (by have := h.header; omega)]
  simp only [h.name.read, h.function_table, h.name_table, h.ordinal_table, hnames,
    Option.bind_eq_bind, Option.bind_some, h.ordinal_base, ← h.ordinals, ← h.functions]
  rfl

section Parse

/-- A match is its name and a zero; the name has none. -/
theorem nameMatch_bytes {b : List Byte} {n : Nat} (h : nameMatch (b.take (n + 5)) [0] n = true) :
    slice b 0 (n + 5) = b.take (n + 4) ++ [0] ∧ (b.take (n + 4)).length = n + 4 ∧
      0 ∉ b.take (n + 4) := by
  simp only [nameMatch, Bool.and_eq_true, decide_eq_true_eq] at h
  obtain ⟨⟨⟨⟨⟨⟨-, -⟩, -⟩, hstem⟩, hdot⟩, hext⟩, hzero⟩ := h
  have hlen : n + 5 ≤ b.length := by
    have hl := congrArg List.length hzero
    rw [List.length_drop, List.length_take, List.length_singleton] at hl
    omega
  have hsplit := List.take_append_drop (n + 4) (b.take (n + 5))
  rw [hzero, List.take_take, Nat.min_eq_left (Nat.le_succ _)] at hsplit
  refine ⟨?_, ?_, ?_⟩
  · rw [slice, List.drop_zero, ← hsplit]
  · rw [List.length_take]
    omega
  · have hparts : b.take (n + 4) = (b.take (n + 5)).take n ++
        (slice (b.take (n + 5)) n 1 ++ slice (b.take (n + 5)) (n + 1) 3) := by
      rw [slice_append, slice, ← List.take_add, List.take_take]
      rw [Nat.min_eq_left (by omega)]
    have hletters : ∀ e ∈ MODULE_EXTENSIONS, (0 : Byte) ∉ e := by decide
    rw [hparts, hdot, List.mem_append, List.mem_append]
    intro hor
    obtain hmem | hmem | hmem := hor
    · exact absurd (List.all_eq_true.mp hstem 0 hmem) (by decide)
    · exact absurd hmem (by decide)
    · exact hletters _ hext hmem

theorem matchModuleName_bytes {b name : List Byte} (h : matchModuleName b = some name) :
    slice b 0 (name.length + 1) = name ++ [0] ∧ 0 ∉ name := by
  obtain ⟨n, hn, rfl⟩ := Option.map_eq_some_iff.mp h
  have hmatch : nameMatch (b.take (n + 5)) [0] n = true := List.find?_some
    (p := fun n => nameMatch (b.take (n + 5)) [0] n) hn
  obtain ⟨hbytes, hlen, hplain⟩ := nameMatch_bytes hmatch
  rw [hlen]
  exact ⟨hbytes, hplain⟩

theorem findNames_bytes {b : List Byte} {i skip p : Nat} {name : List Byte}
    (h : (p, name) ∈ findNames i skip b) :
    ∃ k, p = i + k ∧ slice b k (name.length + 1) = name ++ [0] ∧ 0 ∉ name := by
  induction b generalizing i skip with
  | nil => cases h
  | cons c bs ih =>
    have later (hk : ∃ k, p = i + 1 + k ∧ slice bs k (name.length + 1) = name ++ [0] ∧ 0 ∉ name) :
        ∃ k, p = i + k ∧ slice (c :: bs) k (name.length + 1) = name ++ [0] ∧ 0 ∉ name := by
      obtain ⟨k, hp, hbytes, hplain⟩ := hk
      exact ⟨k + 1, by omega, hbytes, hplain⟩
    rw [findNames] at h
    split at h
    · exact later (ih h)
    · split at h
      · rename_i found hfound
        obtain heq | hmem := List.mem_cons.mp h
        · cases heq
          exact ⟨0, rfl, matchModuleName_bytes hfound⟩
        · exact later (ih hmem)
      · exact later (ih h)

/-- A list with a zero splits at the first one. -/
theorem takeWhile_zero {l : List Byte} (h : (l.takeWhile (· ≠ 0)).length ≠ l.length) :
    l.take ((l.takeWhile (· ≠ 0)).length + 1) = l.takeWhile (· ≠ 0) ++ [0] := by
  induction l with
  | nil => exact absurd rfl h
  | cons b bs ih =>
    by_cases hb : b = 0
    · simp [hb]
    · have hstep : (b :: bs).takeWhile (· ≠ 0) = b :: bs.takeWhile (· ≠ 0) :=
        List.takeWhile_cons_of_pos (by simpa using hb)
      rw [hstep] at h ⊢
      have hne : (bs.takeWhile (· ≠ 0)).length ≠ bs.length := by
        intro heq
        exact h (by rw [List.length_cons, List.length_cons, heq])
      rw [List.length_cons, List.take_succ_cons, ih hne, List.cons_append]

theorem decodeAsciiCString_bytes {raw name : List Byte} {offset : Nat}
    (h : decodeAsciiCString raw offset = some name) :
    slice raw offset (name.length + 1) = name ++ [0] ∧ 0 ∉ name := by
  unfold decodeAsciiCString at h
  dsimp only at h
  split at h
  · cases h
  split at h
  · cases h
  split at h
  · cases h
  split at h
  · rename_i hshort _ _
    cases h
    have hle : ((slice raw offset 128).takeWhile (· ≠ 0)).length + 1 ≤ 128 := by
      have hprefix := (List.takeWhile_sublist (· ≠ 0) (l := slice raw offset 128)).length_le
      have hlen : (slice raw offset 128).length ≤ 128 := List.length_take_le _ _
      omega
    have hzero := takeWhile_zero hshort
    refine ⟨?_, fun hmem => ?_⟩
    · rw [← hzero, slice_take raw offset hle]
    · have hne := List.mem_takeWhile_imp hmem
      simp at hne
  · cases h

theorem exportLocalOffset_some {offset base rva size found : Nat}
    (h : exportLocalOffset offset base rva size = some found) :
    base ≤ rva ∧ found = offset + (rva - base) ∧ found < size := by
  unfold exportLocalOffset at h
  split at h
  · rename_i hin
    cases h
    exact ⟨hin.1, rfl, hin.2.2⟩
  · cases h

theorem le_foldl_max {l : List Nat} {init x : Nat} (h : x ≤ init ∨ x ∈ l) :
    x ≤ l.foldl max init := by
  induction l generalizing init with
  | nil => exact h.resolve_right List.not_mem_nil
  | cons y l ih =>
    apply ih
    obtain h | h := h
    · exact .inl (h.trans (Nat.le_max_left _ _))
    · obtain rfl | h := List.mem_cons.mp h
      · exact .inl (Nat.le_max_right _ _)
      · exact .inr h

theorem exportHeader_drop (raw : List Byte) (offset : Nat) :
    exportHeader (raw.drop offset) 0 = exportHeader raw offset := by
  simp only [exportHeader, u32_drop, u16_drop, Nat.zero_add, Nat.add_zero]

/-- What the name table of an accepted directory holds. -/
theorem exportNamesAt_some {raw : List Byte} {offset rva nameTable count : Nat}
    {names : List (Nat × List Byte)}
    (h : exportNamesAt raw offset rva nameTable count = some names) :
    names.length = count ∧ ∀ (i : Nat) (p : Nat × List Byte), names[i]? = some p →
      p.1 = u32 raw (nameTable + i * 4) ∧ rva ≤ p.1 ∧
        slice raw (offset + (p.1 - rva)) (p.2.length + 1) = p.2 ++ [0] ∧ 0 ∉ p.2 := by
  rw [exportNamesAt, mapM_eq_some_iff] at h
  have hlen := congrArg List.length h
  rw [List.length_map, List.length_map, List.length_range] at hlen
  refine ⟨hlen.symm, fun i p hp => ?_⟩
  obtain ⟨hi, -⟩ := List.getElem?_eq_some_iff.mp hp
  have hat := congrArg (fun l => l[i]?) h
  simp only [List.getElem?_map, hp, Option.map_some] at hat
  rw [List.getElem?_range (by omega), Option.map_some, Option.some.injEq] at hat
  simp only [Option.bind_eq_bind, Option.bind_eq_some_iff] at hat
  obtain ⟨found, hfound, name, hname, heq⟩ := hat
  obtain rfl := Option.some.inj heq
  obtain ⟨hbase, rfl, -⟩ := exportLocalOffset_some hfound
  obtain ⟨hbytes, hplain⟩ := decodeAsciiCString_bytes hname
  exact ⟨rfl, hbase, hbytes, hplain⟩

structure Stands (raw : List Byte) (offset : Nat) (ex : ROMExportDirectory) (v : ExportView) :
    Prop where
  raw_offset : ex.raw_offset = offset
  counted : 1 ≤ (exportHeader (raw.drop offset) 0).name_count ∧
    1 ≤ (exportHeader (raw.drop offset) 0).function_count
  laid : Laid (raw.drop offset) ex.rva v
  name : v.name = ex.name
  names : v.names = ex.export_names
  functions : v.functions = ex.function_rvas
  inside : ∀ r ∈ regions (raw.drop offset) ex.rva v.name v.names, r.1 + r.2 ≤ ex.size

/-- The tables and strings end in front of export_end. -/
theorem le_exportEnd (h : ExportHeader) (name : List Byte) (names : List (Nat × List Byte)) :
    h.function_table_rva + h.function_count * 4 ≤ exportEnd h name names ∧
    h.name_table_rva + h.name_count * 4 ≤ exportEnd h name names ∧
    h.ordinal_table_rva + h.name_count * 2 ≤ exportEnd h name names ∧
    h.name_rva + name.length + 1 ≤ exportEnd h name names ∧
    ∀ p ∈ names, p.1 + p.2.length + 1 ≤ exportEnd h name names := by
  refine ⟨?_, ?_, ?_, ?_, fun p hp => le_foldl_max (.inr (List.mem_map_of_mem hp))⟩
  all_goals exact le_foldl_max (.inl (by omega))

structure Checked (raw : List Byte) (offset base : Nat) (name : List Byte)
    (names : List (Nat × List Byte)) : Prop where
  header : offset + 0x28 ≤ raw.length
  name : StringAt (raw.drop offset) base (exportHeader raw offset).name_rva name
  function_table : base ≤ (exportHeader raw offset).function_table_rva ∧
    offset + ((exportHeader raw offset).function_table_rva - base) +
      (exportHeader raw offset).function_count * 4 ≤ raw.length
  name_table : base ≤ (exportHeader raw offset).name_table_rva ∧
    offset + ((exportHeader raw offset).name_table_rva - base) +
      (exportHeader raw offset).name_count * 4 ≤ raw.length
  ordinal_table : base ≤ (exportHeader raw offset).ordinal_table_rva ∧
    offset + ((exportHeader raw offset).ordinal_table_rva - base) +
      (exportHeader raw offset).name_count * 2 ≤ raw.length
  count : names.length = (exportHeader raw offset).name_count
  names : ∀ (i : Nat) (p : Nat × List Byte), names[i]? = some p →
    p.1 = u32 raw (offset + ((exportHeader raw offset).name_table_rva - base) + i * 4) ∧
      StringAt (raw.drop offset) base p.1 p.2

def viewAt (raw : List Byte) (offset base : Nat) (name : List Byte)
    (names : List (Nat × List Byte)) : ExportView where
  ordinal_base := (exportHeader raw offset).ordinal_base
  name
  names := names.map Prod.snd
  ordinals := (List.range (exportHeader raw offset).name_count).map fun i =>
    u16 raw (offset + ((exportHeader raw offset).ordinal_table_rva - base) + i * 2)
  functions := (List.range (exportHeader raw offset).function_count).map fun i =>
    u32 raw (offset + ((exportHeader raw offset).function_table_rva - base) + i * 4)

variable {raw : List Byte} {offset base : Nat} {name : List Byte} {names : List (Nat × List Byte)}

theorem Checked.name_at (h : Checked raw offset base name names) {i : Nat} {s : List Byte}
    (hs : (names.map Prod.snd)[i]? = some s) : ∃ p ∈ names, p.2 = s ∧
      p.1 = u32 raw (offset + ((exportHeader raw offset).name_table_rva - base) + i * 4) ∧
      StringAt (raw.drop offset) base p.1 s := by
  rw [List.getElem?_map] at hs
  obtain ⟨p, hp, rfl⟩ := Option.map_eq_some_iff.mp hs
  obtain ⟨hword, hstring⟩ := h.names i p hp
  exact ⟨p, List.mem_of_getElem? hp, rfl, hword, hstring⟩

theorem Checked.laid (h : Checked raw offset base name names) :
    Laid (raw.drop offset) base (viewAt raw offset base name names) := by
  have hheader := h.header
  obtain ⟨hfb, hf⟩ := h.function_table
  obtain ⟨hnb, hn⟩ := h.name_table
  obtain ⟨hob, ho⟩ := h.ordinal_table
  constructor
  · rw [List.length_drop]
    omega
  · rw [exportHeader_drop]
    rfl
  · rw [exportHeader_drop]
    exact h.name
  · rw [exportHeader_drop, rvaOffset, List.length_drop, if_pos ⟨hfb, by omega⟩]
  · rw [exportHeader_drop, rvaOffset, List.length_drop, if_pos ⟨hnb, by omega⟩]
  · rw [exportHeader_drop, rvaOffset, List.length_drop, if_pos ⟨hob, by omega⟩]
  · simp only [viewAt, exportHeader_drop, u32_drop, Nat.add_assoc]
  · simp only [viewAt, exportHeader_drop, u16_drop, Nat.add_assoc]
  · rw [exportHeader_drop, viewAt, List.length_map, h.count]
  · intro i s hs
    obtain ⟨p, -, -, hword, hstring⟩ := h.name_at hs
    rwa [exportHeader_drop, u32_drop, ← Nat.add_assoc, ← hword]

/-- Every part of a checked candidate ends in front of export_end. -/
theorem Checked.inside (h : Checked raw offset base name names)
    (hheader : 0x28 ≤ exportEnd (exportHeader raw offset) name names - base) :
    ∀ r ∈ regions (raw.drop offset) base name (names.map Prod.snd),
      r.1 + r.2 ≤ exportEnd (exportHeader raw offset) name names - base := by
  obtain ⟨hfe, hne, hoe, hme, hse⟩ := le_exportEnd (exportHeader raw offset) name names
  have hf := h.function_table.1
  have hn := h.name_table.1
  have ho := h.ordinal_table.1
  have hm := h.name.base_le
  simp only [regions, bodyRegions, nameRegions, exportHeader_drop, List.forall_mem_cons,
    List.forall_mem_map]
  refine ⟨?_, ?_, ?_, ?_, ?_, ?_⟩
  · omega
  · omega
  · omega
  · omega
  · omega
  · intro q hq
    obtain ⟨p, hmem, hp, hword, hstring⟩ := h.name_at (List.mem_zipIdx_iff_getElem?.mp hq)
    have hend := hse p hmem
    have hbase := hstring.base_le
    rw [Nat.add_assoc] at hword
    rw [u32_drop, ← hword, ← hp]
    omega

theorem exportCandidate_stands {start : Nat} {ex : ROMExportDirectory}
    (hlen : offset + 0x28 ≤ raw.length)
    (hcounts : 1 ≤ (exportHeader raw offset).name_count ∧
      1 ≤ (exportHeader raw offset).function_count)
    (hname : slice raw (offset + 0x28 + start) (name.length + 1) = name ++ [0])
    (hplain : 0 ∉ name)
    (h : exportCandidate raw offset (exportHeader raw offset) start name = some ex) :
    ∃ v, Stands raw offset ex v := by
  unfold exportCandidate at h
  split at h
  · cases h
  split at h
  · cases h
  rename_i _ hstart
  simp only [Option.bind_eq_bind, Option.bind_eq_some_iff] at h
  obtain ⟨functionTable, hf, nameTable, hn, ordinalTable, ho, h⟩ := h
  split at h
  · cases h
  rename_i htables
  simp only [Option.bind_eq_some_iff] at h
  obtain ⟨names, hnames, h⟩ := h
  split at h
  · cases h
  cases h
  obtain ⟨hfb, rfl, -⟩ := exportLocalOffset_some hf
  obtain ⟨hnb, rfl, -⟩ := exportLocalOffset_some hn
  obtain ⟨hob, rfl, -⟩ := exportLocalOffset_some ho
  obtain ⟨hcount, hat⟩ := exportNamesAt_some hnames
  have hmodule : StringAt (raw.drop offset) ((exportHeader raw offset).name_rva - (0x28 + start))
      (exportHeader raw offset).name_rva name := by
    refine ⟨by omega, ?_, hplain⟩
    rw [slice_drop, ← hname]
    congr 1
    omega
  have hchecked : Checked raw offset ((exportHeader raw offset).name_rva - (0x28 + start)) name
      names := by
    refine ⟨hlen, hmodule, ⟨hfb, by omega⟩, ⟨hnb, by omega⟩, ⟨hob, by omega⟩, hcount, ?_⟩
    intro i p hp
    obtain ⟨hword, hle, hbytes, hps⟩ := hat i p hp
    exact ⟨hword, hle, by rwa [slice_drop], hps⟩
  have hme := (le_exportEnd (exportHeader raw offset) name names).2.2.2.1
  have hcountsDrop := hcounts
  rw [← exportHeader_drop] at hcountsDrop
  exact ⟨_, rfl, hcountsDrop, hchecked.laid, rfl, rfl, rfl, hchecked.inside (by omega)⟩

theorem parseExportAt_stands {raw : List Byte} {offset : Nat} {ex : ROMExportDirectory}
    (h : parseExportAt raw offset = some ex) : ∃ v, Stands raw offset ex v := by
  unfold parseExportAt at h
  split at h
  · cases h
  rename_i hlen
  dsimp only at h
  iterate 4
    split at h
    · cases h
  split at h
  · cases h
  rename_i hcounts
  split at h
  · cases h
  split at h
  · rename_i found hfound
    cases h
    have hmem := List.mem_singleton_self ex
    rw [← hfound] at hmem
    obtain ⟨⟨start, name⟩, hnames, hex⟩ := List.mem_filterMap.mp hmem
    obtain ⟨k, hk, hbytes, hplain⟩ := findNames_bytes hnames
    have hfit := slice_fits hbytes (by simp) (Nat.succ_ne_zero _)
    have hwindow := List.length_take_le (min raw.length (offset + EXPORT_SCAN_WINDOW) -
      (offset + 0x28)) (raw.drop (offset + 0x28))
    rw [slice_slice _ _ (hfit.trans hwindow)] at hbytes
    rw [Nat.zero_add] at hk
    subst hk
    exact exportCandidate_stands (not_lt.mp hlen) (by omega) hbytes hplain hex
  · cases h

end Parse

section Move

def shiftedWord (old new size v : Nat) : Nat :=
  if old ≤ v ∧ v < old + size then new + v - old else v

structure ShiftedAt (ws : List Nat) (old new size : Nat) (b b' : List Byte) : Prop where
  length : b'.length = b.length
  words : ∀ w ∈ ws, u32 b' w = shiftedWord old new size (u32 b w)
  others : ∀ o n, (∀ w ∈ ws, o + n ≤ w ∨ w + 4 ≤ o) → slice b' o n = slice b o n

variable {b b' : List Byte} {old new size : Nat}

theorem shiftExportRva_ok (old : Nat) (hfit : new + size ≤ 2 ^ 32) {w : Nat}
    (hw : w + 4 ≤ b.length) :
    ∃ b', shiftExportRva b w old new size = .ok b' ∧ ShiftedAt [w] old new size b b' := by
  rw [shiftExportRva, if_neg (not_lt.mpr hw)]
  dsimp only
  by_cases hin : old ≤ u32 b w ∧ u32 b w < old + size
  · have hlt : new + u32 b w - old < 2 ^ 32 := by omega
    have hpack : (pack 4 (new + u32 b w - old)).length = 4 := pack_length 4 _
    have hroom : w + (pack 4 (new + u32 b w - old)).length ≤ b.length := by rwa [hpack]
    rw [if_pos hin, if_pos hlt]
    refine ⟨_, rfl, patch_length hroom, ?_, ?_⟩
    · intro x hx
      rw [List.mem_singleton.mp hx, shiftedWord, if_pos hin, u32]
      have hself := slice_patch_self hroom
      rw [hpack] at hself
      rw [hself, le_pack]
      exact Nat.mod_eq_of_lt hlt
    · intro o n hd
      apply slice_patch_of_disjoint hroom
      rw [hpack]
      exact hd w (List.mem_singleton_self w)
  · rw [if_neg hin]
    refine ⟨b, rfl, rfl, ?_, fun o n _ => rfl⟩
    intro x hx
    rw [List.mem_singleton.mp hx, shiftedWord, if_neg hin]

/-- Words that do not overlap are each shifted once. -/
theorem shiftAll_ok (old : Nat) (hfit : new + size ≤ 2 ^ 32) {ws : List Nat}
    (hin : ∀ w ∈ ws, w + 4 ≤ b.length)
    (hapart : ws.Pairwise fun x y => x + 4 ≤ y ∨ y + 4 ≤ x) :
    ∃ b', ws.foldlM (fun b w => shiftExportRva b w old new size) b = .ok b' ∧
      ShiftedAt ws old new size b b' := by
  induction ws generalizing b with
  | nil => exact ⟨b, rfl, rfl, nofun, fun o n _ => rfl⟩
  | cons w ws ih =>
    obtain ⟨hw, hws⟩ := List.pairwise_cons.mp hapart
    obtain ⟨c, hc, hshift⟩ := shiftExportRva_ok old hfit (hin w List.mem_cons_self)
    have hinc (x : Nat) (hx : x ∈ ws) : x + 4 ≤ c.length := by
      rw [hshift.length]
      exact hin x (List.mem_cons_of_mem w hx)
    obtain ⟨d, hd, hrest⟩ := ih hinc hws
    refine ⟨d, ?_, hrest.length.trans hshift.length, ?_, ?_⟩
    · rw [List.foldlM_cons, hc]
      exact hd
    · intro x hx
      obtain rfl | hx := List.mem_cons.mp hx
      · rw [u32, hrest.others x 4 fun y hy => hw y hy]
        exact hshift.words x (List.mem_singleton_self x)
      · rw [hrest.words x hx, u32, u32, hshift.others x 4]
        intro y hy
        rw [List.mem_singleton.mp hy]
        exact (hw x hx).symm
    · intro o n ho
      rw [hrest.others o n fun x hx => ho x (List.mem_cons_of_mem w hx), hshift.others o n]
      intro x hx
      rw [List.mem_singleton.mp hx]
      exact ho w List.mem_cons_self

variable {v : ExportView}

/-- `b'` holds the directory of `b` with every pointer moved from `old` to `new`. -/
structure Moved (b b' : List Byte) (old new : Nat) (v : ExportView) : Prop where
  counts : ∀ k ∈ [0x10, 0x14, 0x18], u32 b' k = u32 b k
  pointers : ∀ k ∈ [0x0C, 0x1C, 0x20, 0x24], u32 b' k = new + (u32 b k - old)
  table : ∀ i < (exportHeader b 0).name_count,
    u32 b' ((exportHeader b 0).name_table_rva - old + i * 4) =
      new + (u32 b ((exportHeader b 0).name_table_rva - old + i * 4) - old)
  fits : ∀ r ∈ regions b old v.name v.names, r.1 + r.2 ≤ b'.length
  bodies : ∀ r ∈ bodyRegions b old v.name v.names, slice b' r.1 r.2 = slice b r.1 r.2

theorem Laid.move (h : Laid b old v) (hm : Moved b b' old new v) : Laid b' new v := by
  have hbase : (exportHeader b' 0).ordinal_base = (exportHeader b 0).ordinal_base :=
    hm.counts 0x10 (by simp)
  have hfc : (exportHeader b' 0).function_count = (exportHeader b 0).function_count :=
    hm.counts 0x14 (by simp)
  have hnc : (exportHeader b' 0).name_count = (exportHeader b 0).name_count :=
    hm.counts 0x18 (by simp)
  have hname : (exportHeader b' 0).name_rva = new + ((exportHeader b 0).name_rva - old) :=
    hm.pointers 0x0C (by simp)
  have hft : (exportHeader b' 0).function_table_rva =
      new + ((exportHeader b 0).function_table_rva - old) := hm.pointers 0x1C (by simp)
  have hnt : (exportHeader b' 0).name_table_rva =
      new + ((exportHeader b 0).name_table_rva - old) := hm.pointers 0x20 (by simp)
  have hot : (exportHeader b' 0).ordinal_table_rva =
      new + ((exportHeader b 0).ordinal_table_rva - old) := hm.pointers 0x24 (by simp)
  have hfits := hm.fits
  have hbodies := hm.bodies
  simp only [regions, bodyRegions, List.forall_mem_cons] at hfits hbodies
  obtain ⟨fHeader, fNames, fName, fFunctions, fOrdinals, -⟩ := hfits
  obtain ⟨sName, sFunctions, sOrdinals, sNames⟩ := hbodies
  constructor
  · simpa using fHeader
  · rw [hbase, h.ordinal_base]
  · rw [hname]
    refine ⟨Nat.le_add_right _ _, ?_, h.name.plain⟩
    rw [Nat.add_sub_cancel_left, sName, h.name.bytes]
  · rw [hft, hfc, Nat.add_sub_cancel_left, rvaOffset, Nat.add_sub_cancel_left,
      if_pos ⟨Nat.le_add_right _ _, fFunctions⟩]
  · rw [hnt, hnc, Nat.add_sub_cancel_left, rvaOffset, Nat.add_sub_cancel_left,
      if_pos ⟨Nat.le_add_right _ _, fNames⟩]
  · rw [hot, hnc, Nat.add_sub_cancel_left, rvaOffset, Nat.add_sub_cancel_left,
      if_pos ⟨Nat.le_add_right _ _, fOrdinals⟩]
  · rw [h.functions, hfc, hft, Nat.add_sub_cancel_left]
    apply List.map_congr_left
    intro i hi
    have hlt := List.mem_range.mp hi
    rw [u32, u32, slice_sub sFunctions (by omega)]
  · rw [h.ordinals, hnc, hot, Nat.add_sub_cancel_left]
    apply List.map_congr_left
    intro i hi
    have hlt := List.mem_range.mp hi
    rw [u16, u16, slice_sub sOrdinals (by omega)]
  · rw [hnc, h.count]
  · intro i s hs
    have hi : i < (exportHeader b 0).name_count := by
      rw [← h.count]
      exact (List.getElem?_eq_some_iff.mp hs).1
    have hstring := h.names i s hs
    rw [hnt, Nat.add_sub_cancel_left, hm.table i hi]
    refine ⟨Nat.le_add_right _ _, ?_, hstring.plain⟩
    have hmem : (s, i) ∈ v.names.zipIdx := List.mem_zipIdx_iff_getElem?.mpr hs
    rw [Nat.add_sub_cancel_left, ← hstring.bytes]
    exact sNames _ (List.mem_map_of_mem hmem)

end Move

section Relocate
variable {raw : List Byte} {offset : Nat} {ex : ROMExportDirectory} {v : ExportView}

theorem exportCopy_length {size : Nat} (h : offset ≤ raw.length) :
    (exportCopy raw offset size).length = size := by
  have hslice : (slice raw offset (min size (raw.length - offset))).length =
      min size (raw.length - offset) := slice_length (by omega)
  simp only [exportCopy]
  rw [List.length_append, hslice, List.length_replicate]
  omega

/-- The copy agrees with the ROM wherever both have bytes. -/
theorem exportCopy_slice {size o n : Nat} (hsize : o + n ≤ size)
    (hraw : o + n ≤ (raw.drop offset).length) :
    slice (exportCopy raw offset size) o n = slice (raw.drop offset) o n := by
  rw [List.length_drop] at hraw
  by_cases hoff : offset ≤ raw.length
  · have hslice : (slice raw offset (min size (raw.length - offset))).length =
        min size (raw.length - offset) := slice_length (by omega)
    apply List.ext_getElem?
    intro i
    rw [slice_getElem?, slice_getElem?, exportCopy]
    by_cases hi : i < n
    · rw [if_pos hi, if_pos hi, List.getElem?_append_left (by omega), slice_getElem?,
        if_pos (by omega), List.getElem?_drop]
    · rw [if_neg hi, if_neg hi]
  · have hn : n = 0 := by omega
    rw [hn]
    rfl

/-- Header, tables and strings of a directory overlap nowhere. -/
def DisjointParts (raw : List Byte) (ex : ROMExportDirectory) : Prop :=
  (regions (raw.drop ex.raw_offset) ex.rva ex.name ex.export_names).Pairwise Apart

theorem rvaOffset_some {b : List Byte} {base rva n found : Nat}
    (h : rvaOffset b base rva n = some found) : base ≤ rva ∧ rva - base + n ≤ b.length := by
  unfold rvaOffset at h
  split at h
  · assumption
  · cases h

theorem Laid.fits {b : List Byte} {base : Nat} (h : Laid b base v) :
    ∀ r ∈ regions b base v.name v.names, r.1 + r.2 ≤ b.length := by
  simp only [regions, bodyRegions, nameRegions, List.forall_mem_cons, List.forall_mem_map]
  refine ⟨by simpa using h.header, (rvaOffset_some h.name_table).2, h.name.fits,
    (rvaOffset_some h.function_table).2, (rvaOffset_some h.ordinal_table).2, ?_⟩
  intro p hp
  exact (h.names p.2 p.1 (List.mem_zipIdx_iff_getElem?.mp hp)).fits

/-- Every RVA of the directory lies in the `size` bytes from its base on. -/
theorem shiftedWord_of_le {old new size rva n : Nat} (hle : old ≤ rva)
    (h : rva - old + n ≤ size) (hn : 1 ≤ n) :
    shiftedWord old new size rva = new + (rva - old) := by
  rw [shiftedWord, if_pos ⟨hle, by omega⟩]
  omega

/-- The header of the copy is the header of the ROM. -/
theorem exportCopy_header {size : Nat} (hsize : 0x28 ≤ size)
    (hraw : 0x28 ≤ (raw.drop offset).length) :
    exportHeader (exportCopy raw offset size) 0 = exportHeader (raw.drop offset) 0 := by
  have hu32 (k : Nat) (hk : k + 4 ≤ 0x28) :
      u32 (exportCopy raw offset size) k = u32 (raw.drop offset) k := by
    rw [u32, u32, exportCopy_slice (hk.trans hsize) (hk.trans hraw)]
  have hu16 (k : Nat) (hk : k + 2 ≤ 0x28) :
      u16 (exportCopy raw offset size) k = u16 (raw.drop offset) k := by
    rw [u16, u16, exportCopy_slice (hk.trans hsize) (hk.trans hraw)]
  simp only [exportHeader, Nat.zero_add]
  rw [hu32 0 (by decide), hu32 4 (by decide), hu16 8 (by decide), hu16 10 (by decide),
    hu32 12 (by decide), hu32 16 (by decide), hu32 20 (by decide), hu32 24 (by decide),
    hu32 28 (by decide), hu32 32 (by decide), hu32 36 (by decide)]

theorem header_pointer_le : ∀ k ∈ [0x0C, 0x1C, 0x20, 0x24], k + 4 ≤ 0x28 := by
  decide

/-- The shifted words of a directory whose parts overlap nowhere: inside the blob and apart from
each other. -/
theorem shiftedWords_apart {h : ExportHeader} {old size : Nat} (hle : old ≤ h.name_table_rva)
    (htable : h.name_table_rva - old + h.name_count * 4 ≤ size)
    (hbehind : 0x28 ≤ h.name_table_rva - old) (hcount : 1 ≤ h.name_count) :
    (∀ w, w ∈ shiftedWords h old size ↔ w ∈ [0x0C, 0x1C, 0x20, 0x24] ∨
      ∃ i < h.name_count, h.name_table_rva - old + i * 4 = w) ∧
    (∀ w ∈ shiftedWords h old size, w + 4 ≤ size) ∧
    (shiftedWords h old size).Pairwise fun x y => x + 4 ≤ y ∨ y + 4 ≤ x := by
  have hwords : shiftedWords h old size = [0x0C, 0x1C, 0x20, 0x24] ++
      (List.range h.name_count).map (h.name_table_rva - old + · * 4) := by
    rw [shiftedWords, if_pos ⟨hle, by omega⟩]
  have hmem (w : Nat) : w ∈ shiftedWords h old size ↔ w ∈ [0x0C, 0x1C, 0x20, 0x24] ∨
      ∃ i < h.name_count, h.name_table_rva - old + i * 4 = w := by
    rw [hwords, List.mem_append, List.mem_map]
    simp only [List.mem_range]
  refine ⟨hmem, ?_, ?_⟩
  · intro w hw
    obtain hw | ⟨i, hi, rfl⟩ := (hmem w).1 hw
    · have hsmall := header_pointer_le w hw
      omega
    · omega
  · rw [hwords, List.pairwise_append]
    refine ⟨by decide, ?_, ?_⟩
    · rw [List.pairwise_map]
      exact List.pairwise_lt_range.imp fun {i j} hij => .inl (by omega)
    · intro x hx y hy
      obtain ⟨i, -, rfl⟩ := List.mem_map.mp hy
      have hsmall := header_pointer_le x hx
      exact .inl (by omega)

theorem mem_regions {b : List Byte} {base : Nat} {name : List Byte} {names : List (List Byte)}
    {r : Nat × Nat} (h : r ∈ bodyRegions b base name names) : r ∈ regions b base name names :=
  List.mem_cons_of_mem _ (List.mem_cons_of_mem _ h)

theorem Stands.header_size (h : Stands raw offset ex v) : 0x28 ≤ ex.size := by
  simpa using h.inside (0, 0x28) List.mem_cons_self

/-- Header and name table, the parts with pointers, overlap nothing. -/
theorem Stands.apart (h : Stands raw offset ex v) (hparts : DisjointParts raw ex) :
    0x28 ≤ (exportHeader (raw.drop offset) 0).name_table_rva - ex.rva ∧
    ∀ r ∈ bodyRegions (raw.drop offset) ex.rva v.name v.names, Apart (0, 0x28) r ∧
      Apart ((exportHeader (raw.drop offset) 0).name_table_rva - ex.rva,
        (exportHeader (raw.drop offset) 0).name_count * 4) r := by
  rw [DisjointParts, h.raw_offset, ← h.name, ← h.names, regions, List.pairwise_cons,
    List.pairwise_cons] at hparts
  obtain ⟨hheader, htable, -⟩ := hparts
  have hcount := h.counted.1
  have hbehind := hheader _ List.mem_cons_self
  dsimp only [Apart] at hbehind
  exact ⟨by omega, fun r hr => ⟨hheader r (List.mem_cons_of_mem _ hr), htable r hr⟩⟩

/-- The header's four pointers are in range. -/
theorem Stands.pointers (h : Stands raw offset ex v) {size : Nat} (hsize : ex.size ≤ size)
    (newRva : Nat) : ∀ k ∈ [0x0C, 0x1C, 0x20, 0x24],
      shiftedWord ex.rva newRva size (u32 (raw.drop offset) k) =
        newRva + (u32 (raw.drop offset) k - ex.rva) := by
  have hinside := h.inside
  simp only [regions, bodyRegions, List.forall_mem_cons] at hinside
  obtain ⟨-, hnames, hname, hfunctions, hordinals, -⟩ := hinside
  obtain ⟨hnc, hfc⟩ := h.counted
  simp only [List.forall_mem_cons]
  refine ⟨?_, ?_, ?_, ?_, nofun⟩
  · exact shiftedWord_of_le h.laid.name.base_le (hname.trans hsize) (Nat.succ_pos _)
  · exact shiftedWord_of_le (rvaOffset_some h.laid.function_table).1 (hfunctions.trans hsize)
      (by omega)
  · exact shiftedWord_of_le (rvaOffset_some h.laid.name_table).1 (hnames.trans hsize) (by omega)
  · exact shiftedWord_of_le (rvaOffset_some h.laid.ordinal_table).1 (hordinals.trans hsize)
      (by omega)

/-- And so are the pointers of the name table. -/
theorem Stands.table (h : Stands raw offset ex v) {size : Nat} (hsize : ex.size ≤ size)
    (newRva : Nat) {i : Nat} (hi : i < (exportHeader (raw.drop offset) 0).name_count) :
    shiftedWord ex.rva newRva size (u32 (raw.drop offset)
        ((exportHeader (raw.drop offset) 0).name_table_rva - ex.rva + i * 4)) =
      newRva + (u32 (raw.drop offset)
        ((exportHeader (raw.drop offset) 0).name_table_rva - ex.rva + i * 4) - ex.rva) := by
  have hi' : i < v.names.length := h.laid.count.symm ▸ hi
  have hget : v.names[i]? = some v.names[i] := List.getElem?_eq_getElem hi'
  have hzip : (v.names[i], i) ∈ v.names.zipIdx := List.mem_zipIdx_iff_getElem?.mpr hget
  have hregion : (u32 (raw.drop offset) ((exportHeader (raw.drop offset) 0).name_table_rva -
      ex.rva + i * 4) - ex.rva, v.names[i].length + 1) ∈
      nameRegions (raw.drop offset) ex.rva v.names := List.mem_map_of_mem hzip
  have hin := h.inside _ (mem_regions (List.mem_cons_of_mem _ (List.mem_cons_of_mem _
    (List.mem_cons_of_mem _ hregion))))
  exact shiftedWord_of_le (h.laid.names i _ hget).base_le (hin.trans hsize) (Nat.succ_pos _)

theorem Stands.moved (h : Stands raw offset ex v) (hparts : DisjointParts raw ex)
    {size newRva : Nat} {blob : List Byte} (hsize : ex.size ≤ size) (hblob : blob.length = size)
    (hshift : ShiftedAt (shiftedWords (exportHeader (raw.drop offset) 0) ex.rva size) ex.rva newRva
      size (exportCopy raw offset size) blob) :
    Moved (raw.drop offset) blob ex.rva newRva v := by
  have hinside := h.inside
  have h28 := h.header_size
  have hlen28 := h.laid.header
  have hin (r : Nat × Nat) (hr : r ∈ regions (raw.drop offset) ex.rva v.name v.names) :
      slice (exportCopy raw offset size) r.1 r.2 = slice (raw.drop offset) r.1 r.2 :=
    exportCopy_slice ((hinside r hr).trans hsize) (h.laid.fits r hr)
  obtain ⟨hbehind, hapart⟩ := h.apart hparts
  have htableIn := hinside _ (List.mem_cons_of_mem _ List.mem_cons_self)
  obtain ⟨hwords, -, -⟩ := shiftedWords_apart (rvaOffset_some h.laid.name_table).1
    (htableIn.trans hsize) hbehind h.counted.1
  constructor
  · intro k hk
    have hfree : k + 4 ≤ 0x28 ∧ ∀ x ∈ [0x0C, 0x1C, 0x20, 0x24], k + 4 ≤ x ∨ x + 4 ≤ k := by
      revert k
      decide
    rw [u32, hshift.others k 4, exportCopy_slice (by omega) (by omega), u32]
    intro w hw
    obtain hw | ⟨i, -, rfl⟩ := (hwords w).1 hw
    · exact hfree.2 w hw
    · exact .inl (by omega)
  · intro k hk
    have hsmall := header_pointer_le k hk
    rw [hshift.words k ((hwords k).2 (.inl hk)), u32, exportCopy_slice (by omega) (by omega)]
    exact h.pointers hsize newRva k hk
  · intro i hi
    have hsame := slice_sub (hin _ (List.mem_cons_of_mem _ List.mem_cons_self))
      (k := i * 4) (m := 4) (by dsimp only; omega)
    dsimp only at hsame
    rw [hshift.words _ ((hwords _).2 (.inr ⟨i, hi, rfl⟩)), u32, hsame]
    exact h.table hsize newRva hi
  · intro r hr
    rw [hblob]
    exact (hinside r hr).trans hsize
  · intro r hr
    obtain ⟨hfromHeader, hfromTable⟩ := hapart r hr
    dsimp only [Apart] at hfromHeader hfromTable
    rw [hshift.others r.1 r.2, hin r (mem_regions hr)]
    intro w hw
    obtain hw | ⟨i, hi, rfl⟩ := (hwords w).1 hw
    · have hsmall := header_pointer_le w hw
      omega
    · omega

theorem Stands.relocated (h : Stands raw offset ex v) (hparts : DisjointParts raw ex)
    (e32 : E32Rom) {newRva : Nat} (hfit : newRva + max e32.export_size ex.size ≤ 2 ^ 32) :
    ∃ blob, relocatedExportBlob raw e32 ex newRva = .ok blob ∧ Laid blob newRva v := by
  have h28 := h.header_size
  have hlen28 := h.laid.header
  have hoff : offset ≤ raw.length := by
    rw [List.length_drop] at hlen28
    omega
  generalize hsize : max e32.export_size ex.size = size at hfit
  have hexsize : ex.size ≤ size := hsize ▸ Nat.le_max_right _ _
  have hcopylen : (exportCopy raw offset size).length = size := exportCopy_length hoff
  have hcopyheader : exportHeader (exportCopy raw offset size) 0 =
      exportHeader (raw.drop offset) 0 := exportCopy_header (h28.trans hexsize) hlen28
  have htableIn := h.inside _ (List.mem_cons_of_mem _ List.mem_cons_self)
  obtain ⟨-, hwordsIn, hwordsApart⟩ := shiftedWords_apart (rvaOffset_some h.laid.name_table).1
    (htableIn.trans hexsize) (h.apart hparts).1 h.counted.1
  obtain ⟨blob, hblob, hshift⟩ := shiftAll_ok ex.rva hfit
    (fun w hw => (hwordsIn w hw).trans hcopylen.ge) hwordsApart
  have hmoved := h.moved hparts hexsize (hshift.length.trans hcopylen) hshift
  refine ⟨blob, ?_, h.laid.move hmoved⟩
  have hnamein := h.inside _ (mem_regions List.mem_cons_self)
  have hnamebase := h.laid.name.base_le
  dsimp only at hnamein
  simp only [relocatedExportBlob, h.raw_offset, hsize, hcopyheader]
  rw [if_neg (by omega), hblob]
  simp only [bind, Except.bind]
  rw [if_neg (by omega)]
  rfl

/-- A directory whose parts overlap nowhere reads the same before and after its move. -/
theorem relocated_export_exact (e32 : E32Rom) {newRva : Nat}
    (hparse : parseExportAt raw offset = some ex) (hparts : DisjointParts raw ex)
    (hfit : newRva + max e32.export_size ex.size ≤ 2 ^ 32) :
    ∃ blob v, relocatedExportBlob raw e32 ex newRva = .ok blob ∧
      readExport (raw.drop ex.raw_offset) ex.rva = some v ∧ readExport blob newRva = some v ∧
      v.name = ex.name ∧ v.names = ex.export_names ∧ v.functions = ex.function_rvas := by
  obtain ⟨v, h⟩ := parseExportAt_stands hparse
  obtain ⟨blob, hblob, hlaid⟩ := h.relocated hparts e32 hfit
  have hread := h.laid.read
  rw [← h.raw_offset] at hread
  exact ⟨blob, v, hblob, hread, hlaid.read, h.name, h.names, h.functions⟩

/-- m.dll with the exports F and G, four bytes into a ROM and loaded at 0x1000. -/
def sampleRom : List Byte :=
  pack 4 0 ++ pack 4 0 ++ pack 4 0x40000000 ++ pack 4 0 ++ pack 4 0x1028 ++ pack 4 1 ++ pack 4 2 ++
    pack 4 2 ++ pack 4 0x102E ++ pack 4 0x1036 ++ pack 4 0x103E ++
    [0x6D, 0x2E, 0x64, 0x6C, 0x6C, 0] ++ pack 4 0x2000 ++ pack 4 0x2010 ++ pack 4 0x1042 ++
    pack 4 0x1044 ++ pack 2 0 ++ pack 2 1 ++ [0x46, 0, 0x47, 0]

def sampleExport : ROMExportDirectory where
  raw_offset := 4
  rva := 0x1000
  size := 0x46
  timestamp := 0x40000000
  name := [0x6D, 0x2E, 0x64, 0x6C, 0x6C]
  function_rvas := [0x2000, 0x2010]
  export_names := [[0x46], [0x47]]

def sampleModule : E32Rom where
  offset := 0
  object_count := 1
  image_flags := 0x2102
  entry_rva := 0x2000
  image_base := 0x10000000
  subsystem_major := 5
  subsystem_minor := 0
  stack_max := 0x10000
  virtual_size := 0x3000
  sect14_rva := 0
  sect14_size := 0
  timestamp := 0x40000000
  units := [(0x1000, 0x80)]
  subsystem := 9
  sections := []

theorem relocated_export_exact_sample :
    ∃ blob v, relocatedExportBlob sampleRom sampleModule sampleExport 0x5000 = .ok blob ∧
      readExport (sampleRom.drop 4) 0x1000 = some v ∧ readExport blob 0x5000 = some v ∧
      v.name = [0x6D, 0x2E, 0x64, 0x6C, 0x6C] ∧ v.names = [[0x46], [0x47]] ∧
      v.functions = [0x2000, 0x2010] :=
  relocated_export_exact sampleModule
    (show parseExportAt sampleRom 4 = some sampleExport by decide +kernel)
    (by unfold DisjointParts; decide +kernel) (by decide)

end Relocate

end AipcOs.RomModule
