import AipcOs.StructBytes

/-! ak7802_nand_dump_min: the loop that reads a chip page by page into a file. -/
namespace AipcOs.NandDumpMin
open ByteMemory StructBytes

def MAX_CONSECUTIVE_ERRORS : Nat := 16

/-- What read_page does for each page: an exception, or the raw bytes that read_mem was asked for. -/
structure Reader where
  chunks_per_page : Nat
  chunks_pos : 1 ≤ chunks_per_page
  read : Nat → Option (List Byte)
  size : ∀ p data, read p = some data → data.length = chunks_per_page * 528

def Reader.raw_page_size (r : Reader) : Nat := r.chunks_per_page * 528

structure Dump where
  file : List Byte
  page : Nat

def dumpLoop (r : Reader) : (left page errors : Nat) → List Byte → Dump
  | 0, page, _, file => ⟨file, page⟩
  | left + 1, page, errors, file =>
    match r.read page with
    | none =>
      if errors + 1 ≥ MAX_CONSECUTIVE_ERRORS then ⟨file, page⟩
      else dumpLoop r left (page + 1) (errors + 1) file
    | some data => dumpLoop r left (page + 1) 0 (file ++ data)

/-- An unknown page count is read until the errors stop the loop. -/
def dump (r : Reader) (total : Nat) : Dump :=
  dumpLoop r (if total = 0 then 0xFFFFFFFF else total) 0 0 []

def goods (r : Reader) (n : Nat) : List (List Byte) := (List.range n).filterMap r.read

def failuresBefore (r : Reader) : Nat → Nat
  | 0 => 0
  | n + 1 => if (r.read n).isSome then 0 else failuresBefore r n + 1

def Reached (r : Reader) (total p : Nat) : Prop :=
  p < (if total = 0 then 0xFFFFFFFF else total) ∧
    ∀ n ≤ p, failuresBefore r n < MAX_CONSECUTIVE_ERRORS

def InPlace (r : Reader) (d : Dump) : Prop :=
  ∀ p data, p < d.page → r.read p = some data →
    slice d.file (p * r.raw_page_size) r.raw_page_size = data

variable {r : Reader} {total : Nat}

theorem goods_succ (n : Nat) : goods r (n + 1) = goods r n ++ (r.read n).toList := by
  rw [goods, List.range_succ, List.filterMap_append]
  cases h : r.read n <;> simp [goods, h]

theorem goods_all (p : Nat) (h : ∀ q < p, (r.read q).isSome) : (goods r p).length = p := by
  induction p with
  | zero => rfl
  | succ p ih =>
    have hread := h p (Nat.lt_succ_self p)
    obtain ⟨data, hdata⟩ := Option.isSome_iff_exists.mp hread
    rw [goods_succ, List.length_append, ih fun q hq => h q (Nat.lt_succ_of_lt hq), hdata]
    rfl

theorem goods_length_le (p : Nat) : (goods r p).length ≤ p := by
  have h := List.length_filterMap_le r.read (List.range p)
  rwa [List.length_range] at h

theorem goods_lt {p q : Nat} (hpq : p < q) (hp : r.read p = none) : (goods r q).length < q := by
  induction q with
  | zero => omega
  | succ q ih =>
    rw [goods_succ, List.length_append]
    by_cases heq : p = q
    · subst heq
      have hle : (goods r p).length ≤ p := goods_length_le p
      rw [hp]
      exact Nat.lt_succ_of_le hle
    · have hlt := ih (by omega)
      have hone : (r.read q).toList.length ≤ 1 := by cases r.read q <;> simp
      omega

theorem goods_append (m k : Nat) :
    goods r (m + k) = goods r m ++ ((List.range k).filterMap fun i => r.read (m + i)) := by
  rw [goods, List.range_add, List.filterMap_append, List.filterMap_map]
  rfl

/-- Only failures add nothing. -/
theorem goods_stop {m n : Nat} (hmn : m ≤ n) (h : ∀ k, m ≤ k → k < n → r.read k = none) :
    goods r n = goods r m := by
  obtain ⟨k, rfl⟩ := Nat.exists_eq_add_of_le hmn
  rw [goods_append, List.append_right_eq_self, List.filterMap_eq_nil_iff]
  intro i hi
  have hlt := List.mem_range.mp hi
  exact h (m + i) (Nat.le_add_right m i) (by omega)

theorem goods_flatten_length (p : Nat) :
    (goods r p).flatten.length = (goods r p).length * r.raw_page_size := by
  induction p with
  | zero => simp [goods]
  | succ p ih =>
    rw [goods_succ, List.flatten_append, List.length_append, List.length_append, ih]
    cases h : r.read p with
    | none => simp
    | some data =>
      have hsize := r.size p data h
      simp [hsize, Reader.raw_page_size, Nat.add_mul]

structure Ends (r : Reader) (first last : Nat) (d : Dump) : Prop where
  file : d.file = (goods r d.page).flatten
  bounds : first ≤ d.page ∧ d.page ≤ last
  running : ∀ n, first ≤ n → n ≤ d.page → failuresBefore r n < MAX_CONSECUTIVE_ERRORS
  stop : d.page < last → MAX_CONSECUTIVE_ERRORS ≤ failuresBefore r (d.page + 1)

theorem dumpLoop_ends (left page : Nat)
    (herrors : failuresBefore r page < MAX_CONSECUTIVE_ERRORS) :
    Ends r page (page + left)
      (dumpLoop r left page (failuresBefore r page) (goods r page).flatten) := by
  have here (n : Nat) (hlo : page ≤ n) (hhi : n ≤ page) :
      failuresBefore r n < MAX_CONSECUTIVE_ERRORS := Nat.le_antisymm hhi hlo ▸ herrors
  induction left generalizing page with
  | zero => exact ⟨rfl, ⟨Nat.le_refl _, Nat.le_refl _⟩, here, fun h => absurd h (Nat.lt_irrefl _)⟩
  | succ left ih =>
    have hgoods := goods_succ (r := r) page
    have next (hnext : failuresBefore r (page + 1) < MAX_CONSECUTIVE_ERRORS) :
        Ends r page (page + (left + 1)) (dumpLoop r left (page + 1)
          (failuresBefore r (page + 1)) (goods r (page + 1)).flatten) := by
      have hrest := ih (page + 1) hnext fun n hlo hhi => Nat.le_antisymm hhi hlo ▸ hnext
      refine ⟨hrest.file, ⟨by have hb := hrest.bounds; omega, by have hb := hrest.bounds; omega⟩,
        fun n hlo hhi => ?_, fun h => hrest.stop (by omega)⟩
      by_cases heq : n = page
      · exact heq ▸ herrors
      · exact hrest.running n (by omega) hhi
    rw [dumpLoop]
    cases hread : r.read page with
    | none =>
      have hcount : failuresBefore r (page + 1) = failuresBefore r page + 1 := by
        simp [failuresBefore, hread]
      rw [hread, Option.toList_none, List.append_nil] at hgoods
      dsimp only
      split
      · rename_i hstop
        exact ⟨rfl, ⟨Nat.le_refl _, Nat.le_add_right _ _⟩, here, fun _ => hcount ▸ hstop⟩
      · rename_i hgo
        have hnext := next (by omega)
        rwa [hcount, hgoods] at hnext
    | some data =>
      have hcount : failuresBefore r (page + 1) = 0 := by simp [failuresBefore, hread]
      have hnext := next (by rw [hcount]; decide)
      rwa [hcount, hgoods, hread, List.flatten_append, Option.toList_some, List.flatten_singleton]
        at hnext

theorem dump_ends : Ends r 0 (if total = 0 then 0xFFFFFFFF else total) (dump r total) := by
  have hzero : failuresBefore r 0 < MAX_CONSECUTIVE_ERRORS := Nat.zero_lt_succ _
  have h := dumpLoop_ends (if total = 0 then 0xFFFFFFFF else total) 0 hzero
  rwa [Nat.zero_add] at h

/-- The pages read successfully are the good ones that the loop comes to. -/
theorem lt_page_iff {p : Nat} (hp : (r.read p).isSome) :
    p < (dump r total).page ↔ Reached r total p := by
  have h : Ends r 0 _ (dump r total) := dump_ends
  constructor
  · intro hlt
    exact ⟨hlt.trans_le h.bounds.2, fun n hn => h.running n (Nat.zero_le n) (hn.trans hlt.le)⟩
  · intro hboth
    obtain ⟨htotal, hrun⟩ := hboth
    by_contra hge
    have hstop := h.stop (by omega)
    by_cases heq : (dump r total).page = p
    · rw [heq, failuresBefore, if_pos hp] at hstop
      exact absurd hstop (by decide)
    · have hlow := hrun ((dump r total).page + 1) (by omega)
      omega

/-- A page with only good pages in front of it stands at its place. -/
theorem slice_goods {n p : Nat} {data : List Byte} (hp : p < n) (hdata : r.read p = some data)
    (hall : ∀ q < p, (r.read q).isSome) :
    slice (goods r n).flatten (p * r.raw_page_size) r.raw_page_size = data := by
  obtain ⟨k, rfl⟩ := Nat.exists_eq_add_of_le (Nat.succ_le_of_lt hp)
  have hlen := goods_flatten_length (r := r) p
  rw [goods_all p hall] at hlen
  have hsize : data.length = r.raw_page_size := r.size p data hdata
  rw [goods_append, goods_succ, hdata, List.flatten_append, List.flatten_append, Option.toList_some,
    List.flatten_singleton, slice, ← hlen, List.append_assoc, List.drop_left, ← hsize,
    List.take_left]

/-- The last good page is behind the end of the file if a page in front of it failed. -/
theorem goods_short {n p q : Nat} (hpq : p < q) (hp : r.read p = none)
    (hlast : ∀ k, q < k → k < n → r.read k = none) (hq : q < n) :
    (goods r n).flatten.length ≤ q * r.raw_page_size := by
  rw [goods_stop (Nat.succ_le_of_lt hq) fun k hk hkn => hlast k hk hkn, goods_flatten_length]
  exact Nat.mul_le_mul_right _ (Nat.le_of_lt_succ (goods_lt (Nat.lt_succ_of_lt hpq) hp))

/-- The dump keeps its pages in place exactly if no page fails in front of one that is read. -/
theorem dump_inPlace_iff (r : Reader) (total : Nat) :
    InPlace r (dump r total) ↔
      ∀ p q, p < q → Reached r total q → (r.read q).isSome → (r.read p).isSome := by
  have h : Ends r 0 _ (dump r total) := dump_ends
  have hraw : 0 < r.raw_page_size := Nat.mul_pos r.chunks_pos (by decide)
  constructor
  · intro hplace p q hpq hreach hq
    by_contra hp
    have hnone : r.read p = none := Option.not_isSome_iff_eq_none.mp hp
    have hlt := (lt_page_iff hq).2 hreach
    have hle : q ≤ (dump r total).page - 1 := by omega
    have hlast := Nat.findGreatest_spec (P := fun k => (r.read k).isSome = true) hle hq
    have hpos := Nat.le_findGreatest (P := fun k => (r.read k).isSome = true) hle hq
    have hbound := Nat.findGreatest_le (P := fun k => (r.read k).isSome = true)
      ((dump r total).page - 1)
    have hnext (k : Nat) (hk : Nat.findGreatest (fun k => (r.read k).isSome = true)
        ((dump r total).page - 1) < k) (hkn : k < (dump r total).page) : r.read k = none :=
      Option.not_isSome_iff_eq_none.mp (Nat.findGreatest_is_greatest hk (by omega))
    generalize Nat.findGreatest (fun k => (r.read k).isSome = true) ((dump r total).page - 1) = last
      at hlast hpos hbound hnext
    obtain ⟨data, hdata⟩ := Option.isSome_iff_exists.mp hlast
    have hstands := hplace last data (by omega) hdata
    have hfits := slice_fits hstands (r.size last data hdata) (Nat.pos_iff_ne_zero.mp hraw)
    have hshort := goods_short (n := (dump r total).page) (by omega : p < last) hnone hnext
      (by omega)
    rw [← h.file] at hshort
    omega
  · intro hgood p data hp hdata
    have hsome : (r.read p).isSome := by rw [hdata]; rfl
    rw [h.file]
    exact slice_goods hp hdata fun q hq => hgood q p hq ((lt_page_iff hsome).1 hp) hsome

def firstFails : Reader where
  chunks_per_page := 1
  chunks_pos := Nat.zero_lt_one
  read p := if p = 0 then none else some (List.replicate 528 1)
  size := by
    intro p data h
    split at h
    · cases h
    · cases h
      exact List.length_replicate

/-- Page 1 stands in the place of page 0. -/
theorem dump_shifts : ¬ InPlace firstFails (dump firstFails 2) := by
  intro h
  have hfile : (dump firstFails 2).file = List.replicate 528 1 := rfl
  have hpage := h 1 (List.replicate 528 1) Nat.one_lt_two rfl
  have hfits := slice_fits hpage List.length_replicate (by decide)
  rw [hfile, List.length_replicate] at hfits
  revert hfits
  decide

end AipcOs.NandDumpMin
