import AipcOs.StructBytes

/-! Tables of fields of one width, and parts that lie one behind the other, by the offsets at
which they end. -/
namespace AipcOs.OffsetTable
open ByteMemory StructBytes

def fields (w : Nat) (b : List Byte) (n : Nat) : List Nat :=
  (List.range n).map fun i => le (slice b (w * i) w)

def ends (start : Nat) : List (List Byte) → List Nat
  | [] => []
  | p :: ps => (start + p.length) :: ends (start + p.length) ps

def cut (b : List Byte) (start : Nat) : List Nat → List (List Byte)
  | [] => []
  | e :: es => slice b start (e - start) :: cut b e es

theorem pack_le (bs : List Byte) : pack bs.length (le bs) = bs := by
  induction bs with
  | nil => rfl
  | cons x bs ih =>
    have hx := x.isLt
    have hle : le (x :: bs) = x.toNat + 256 * le bs := by
      simp [le, Nat.ofDigits_cons]
    have hdiv : (x.toNat + 256 * le bs) / 256 = le bs := by omega
    have hlow : BitVec.ofNat 8 (x.toNat + 256 * le bs) = x := by
      apply BitVec.eq_of_toNat_eq
      rw [BitVec.toNat_ofNat]
      omega
    rw [hle, List.length_cons, pack, hdiv, hlow, ih]

theorem le_slice_lt (b : List Byte) (off n : Nat) : le (slice b off n) < 256 ^ n :=
  (le_lt _).trans_le (Nat.pow_le_pow_right (by decide) (List.length_take_le _ _))

theorem mapM_eq_some_iff {α β : Type} (f : α → Option β) (xs : List α) (ys : List β) :
    xs.mapM f = some ys ↔ xs.map f = ys.map some := by
  induction xs generalizing ys with
  | nil => cases ys <;> simp
  | cons x xs ih =>
    rw [List.mapM_cons]
    cases hx : f x with
    | none => cases ys <;> simp [hx]
    | some y =>
      cases hxs : xs.mapM f with
      | none =>
        have hne : ∀ zs : List β, xs.map f ≠ zs.map some := by
          intro zs hzs
          rw [(ih zs).2 hzs] at hxs
          cases hxs
        cases ys <;> simp [hx, hne]
      | some zs =>
        have hzs := (ih zs).1 hxs
        cases ys with
        | nil => simp
        | cons w ws => simp [hx, hzs, List.map_inj_right]

theorem fields_succ (w : Nat) (b : List Byte) (n : Nat) :
    fields w b (n + 1) = le (slice b 0 w) :: fields w (b.drop w) n := by
  simp only [fields, List.range_succ_eq_map, List.map_cons, List.map_map, Nat.mul_zero]
  congr 1
  apply List.map_congr_left
  intro i _
  rw [Function.comp_apply, slice_drop, Nat.mul_succ, Nat.add_comm]

theorem fields_lt {w n v : Nat} {b : List Byte} (h : v ∈ fields w b n) : v < 256 ^ w := by
  obtain ⟨i, -, rfl⟩ := List.mem_map.mp h
  exact le_slice_lt b (w * i) w

theorem fields_length (w : Nat) (b : List Byte) (n : Nat) : (fields w b n).length = n := by
  rw [fields, List.length_map, List.length_range]

theorem table_length (w : Nat) (vs : List Nat) :
    (vs.flatMap (pack w)).length = w * vs.length := by
  induction vs with
  | nil => rfl
  | cons v vs ih =>
    rw [List.flatMap_cons, List.length_append, pack_length, ih, List.length_cons, Nat.mul_succ,
      Nat.add_comm]

/-- What a table holds is read back from it. -/
theorem fields_table {w : Nat} {vs : List Nat} (h : ∀ v ∈ vs, v < 256 ^ w) (rest : List Byte) :
    fields w (vs.flatMap (pack w) ++ rest) vs.length = vs := by
  induction vs with
  | nil => rfl
  | cons v vs ih =>
    have hv := h v List.mem_cons_self
    rw [List.flatMap_cons, List.append_assoc, List.length_cons, fields_succ,
      List.drop_left' (pack_length w v), ih fun x hx => h x (List.mem_cons_of_mem v hx)]
    rw [slice, List.drop_zero, List.take_left' (pack_length w v), le_pack, Nat.mod_eq_of_lt hv]

/-- The fields of a table make it up. -/
theorem flatMap_fields {w n : Nat} {b : List Byte} (h : w * n ≤ b.length) :
    (fields w b n).flatMap (pack w) = b.take (w * n) := by
  induction n generalizing b with
  | zero => rfl
  | succ n ih =>
    rw [Nat.mul_succ] at h
    have hlen : (slice b 0 w).length = w := slice_length (by omega)
    have hpack : pack w (le (slice b 0 w)) = b.take w := by
      have hself := pack_le (slice b 0 w)
      rwa [hlen] at hself
    rw [fields_succ, List.flatMap_cons, hpack, ih (by rw [List.length_drop]; omega),
      Nat.mul_succ, Nat.add_comm, List.take_add]

theorem ends_length (start : Nat) (ps : List (List Byte)) : (ends start ps).length = ps.length := by
  induction ps generalizing start with
  | nil => rfl
  | cons p ps ih => exact congrArg (· + 1) (ih _)

theorem ends_getLast (start : Nat) (ps : List (List Byte)) :
    (start :: ends start ps).getLast? = some (start + ps.flatten.length) := by
  induction ps generalizing start with
  | nil => rfl
  | cons p ps ih =>
    rw [ends, List.getLast?_cons_cons, ih, List.flatten_cons, List.length_append, Nat.add_assoc]

/-- Parts are found again by their ends. -/
theorem cut_ends (front rest : List Byte) (ps : List (List Byte)) :
    cut (front ++ (ps.flatten ++ rest)) front.length (ends front.length ps) = ps := by
  induction ps generalizing front with
  | nil => rfl
  | cons p ps ih =>
    have hpart : slice (front ++ (p ++ (ps.flatten ++ rest))) front.length p.length = p := by
      rw [slice, List.drop_left, List.take_left]
    have htail := ih (front ++ p)
    rw [List.length_append, List.append_assoc] at htail
    rw [ends, cut, List.flatten_cons, List.append_assoc, Nat.add_sub_cancel_left, hpart, htail]

def Rise (limit start : Nat) : List Nat → Prop
  | [] => start ≤ limit
  | e :: es => start ≤ e ∧ Rise limit e es

theorem Rise.start_le {limit start : Nat} {es : List Nat} (h : Rise limit start es) :
    start ≤ limit := by
  induction es generalizing start with
  | nil => exact h
  | cons e es ih => exact h.1.trans (ih h.2)

theorem rise_ends {limit start : Nat} {ps : List (List Byte)}
    (h : start + ps.flatten.length ≤ limit) : Rise limit start (ends start ps) := by
  induction ps generalizing start with
  | nil => exact h
  | cons p ps ih =>
    rw [List.flatten_cons, List.length_append] at h
    exact ⟨Nat.le_add_right start _, ih (by omega)⟩

theorem ends_cut {b : List Byte} {start : Nat} {es : List Nat} (h : Rise b.length start es) :
    ends start (cut b start es) = es := by
  induction es generalizing start with
  | nil => rfl
  | cons e es ih =>
    have hle := h.1
    have hlim := h.2.start_le
    have hend : start + (slice b start (e - start)).length = e := by
      rw [slice_length (by omega)]
      omega
    rw [cut, ends, hend, ih h.2]

/-- The parts make up what lies between the start and the last end. -/
theorem flatten_cut {b : List Byte} {start last : Nat} {es : List Nat}
    (h : Rise b.length start es) (hlast : (start :: es).getLast? = some last) :
    start ≤ last ∧ (cut b start es).flatten = slice b start (last - start) := by
  induction es generalizing start with
  | nil =>
    obtain rfl : start = last := Option.some.inj hlast
    exact ⟨le_rfl, by simp [cut, slice]⟩
  | cons e es ih =>
    rw [List.getLast?_cons_cons] at hlast
    obtain ⟨hle, hrest⟩ := ih h.2 hlast
    have hfirst := h.1
    refine ⟨hfirst.trans hle, ?_⟩
    have hjoin := slice_append b start (e - start) (last - e)
    rw [Nat.add_sub_cancel' hfirst] at hjoin
    have hsum : e - start + (last - e) = last - start := by omega
    rw [cut, List.flatten_cons, hrest, hjoin, hsum]

end AipcOs.OffsetTable
