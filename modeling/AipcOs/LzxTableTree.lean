import AipcOs.LzxTableDirect

/-! wincedecompr.py: the second stage of __make_decode_table, as a tree that grows to the right
below the direct entries. -/
namespace AipcOs.LzxTable
open MsbBits PrefixCode

def cellAt (nsyms : Nat) (table : List Nat) (v : Nat) : Nat → Option Nat
  | 0 => some (v >>> 16)
  | k + 1 =>
    match cellAt nsyms table v k with
    | none => none
    | some c =>
      match table[c]? with
      | none => none
      | some n => if nsyms ≤ n then some (2 * n + (v >>> (15 - k)) % 2) else none

/-- The table holds the words `pre` of lengths up to `L`, and a tree of the nodes below `next`. -/
structure Grown (nsyms nbits L : Nat) (pre : List (Nat × Nat)) (table : List Nat) (next : Nat) :
    Prop where
  base : 2 ^ nbits ≤ 2 * next
  room : 2 * next ≤ table.length
  syms : 0 < nsyms ∧ nsyms ≤ next
  node : ∀ v < 2 ^ (nbits + 16), ∀ k c n, cellAt nsyms table v k = some c →
    table[c]? = some n → nsyms ≤ n → n < next ∧ nbits + k < L
  unique : ∀ u < 2 ^ (nbits + 16), ∀ v < 2 ^ (nbits + 16), ∀ j k c,
    cellAt nsyms table u j = some c → cellAt nsyms table v k = some c →
    j = k ∧ u >>> (16 - k) = v >>> (16 - k)
  leaf : ∀ v < 2 ^ (nbits + 16), ∀ k c n, cellAt nsyms table v k = some c →
    table[c]? = some n → n < nsyms →
    (∀ u, u >>> (16 - k) = v >>> (16 - k) →
      locate (nbits + 16) pre u = some n ∧ u < span (nbits + 16) pre) ∨
    n = 0 ∧ ∀ u, u >>> (16 - k) = v >>> (16 - k) → span (nbits + 16) pre ≤ u

variable {nsyms nbits L : Nat} {pre : List (Nat × Nat)} {table : List Nat} {next : Nat}

theorem cellAt_succ {v k c : Nat} :
    cellAt nsyms table v (k + 1) = some c ↔ ∃ d n, cellAt nsyms table v k = some d ∧
      table[d]? = some n ∧ nsyms ≤ n ∧ c = 2 * n + (v >>> (15 - k)) % 2 := by
  rw [cellAt]
  cases hd : cellAt nsyms table v k with
  | none => simp
  | some d =>
    cases hn : table[d]? with
    | none => simp [hn]
    | some n =>
      by_cases hle : nsyms ≤ n
      · simp [hn, hle, eq_comm]
      · simp [hn, hle]

theorem shiftRight_half {v k : Nat} (hk : k < 16) : v >>> (16 - k) = (v >>> (15 - k)) / 2 := by
  have h : 16 - k = 15 - k + 1 := by omega
  rw [h, Nat.shiftRight_succ]

theorem shiftRight_of_succ {u v k : Nat} (hk : k < 16)
    (h : u >>> (16 - (k + 1)) = v >>> (16 - (k + 1))) : u >>> (16 - k) = v >>> (16 - k) := by
  have h15 : 16 - (k + 1) = 15 - k := by omega
  rw [h15] at h
  rw [shiftRight_half hk, shiftRight_half hk, h]

theorem shiftRight_mono {u v j k : Nat} (hjk : j ≤ k) (hk : k ≤ 16)
    (h : u >>> (16 - k) = v >>> (16 - k)) : u >>> (16 - j) = v >>> (16 - j) := by
  have hs : 16 - j = 16 - k + (k - j) := by omega
  rw [hs, Nat.shiftRight_add, Nat.shiftRight_add, h]

/-- The way depends on the bits that it has used only. -/
theorem cellAt_congr {u v k : Nat} (hk : k ≤ 16) (h : u >>> (16 - k) = v >>> (16 - k)) :
    cellAt nsyms table u k = cellAt nsyms table v k := by
  induction k with
  | zero => exact congrArg some h
  | succ k ih =>
    have h15 : 16 - (k + 1) = 15 - k := by omega
    rw [cellAt, cellAt, ih (by omega) (shiftRight_of_succ (by omega) h), ← h15, h]

/-- Every entry on the way to a cell is a node. -/
theorem cellAt_before {v j k c : Nat} (hjk : j < k) (h : cellAt nsyms table v k = some c) :
    ∃ d n, cellAt nsyms table v j = some d ∧ table[d]? = some n ∧ nsyms ≤ n := by
  induction k generalizing c with
  | zero => exact absurd hjk (Nat.not_lt_zero j)
  | succ k ih =>
    obtain ⟨d, n, hd, hn, hle, -⟩ := cellAt_succ.mp h
    obtain hlt | rfl := Nat.lt_or_eq_of_le (Nat.le_of_lt_succ hjk)
    · exact ih hlt hd
    · exact ⟨d, n, hd, hn, hle⟩

theorem shiftRight_lt {v : Nat} (hv : v < 2 ^ (nbits + 16)) : v >>> 16 < 2 ^ nbits := by
  rw [Nat.shiftRight_eq_div_pow, Nat.div_lt_iff_lt_mul (Nat.two_pow_pos 16), ← Nat.pow_add]
  exact hv

namespace Grown

theorem cell_lt (h : Grown nsyms nbits L pre table next) {v k c : Nat}
    (hv : v < 2 ^ (nbits + 16)) (hc : cellAt nsyms table v k = some c) : c < 2 * next := by
  cases k with
  | zero =>
    obtain rfl := Option.some.inj hc
    exact (shiftRight_lt hv).trans_le h.base
  | succ k =>
    obtain ⟨d, n, hd, hn, hle, rfl⟩ := cellAt_succ.mp hc
    have hlt := (h.node v hv k d n hd hn hle).1
    omega

theorem depth (h : Grown nsyms nbits L pre table next) {v k c : Nat}
    (hv : v < 2 ^ (nbits + 16)) (hL : nbits ≤ L) (hc : cellAt nsyms table v k = some c) :
    nbits + k ≤ L := by
  cases k with
  | zero => exact hL
  | succ k =>
    obtain ⟨d, n, hd, hn, hle, -⟩ := cellAt_succ.mp hc
    exact (h.node v hv k d n hd hn hle).2

theorem mono (h : Grown nsyms nbits L pre table next) {L' : Nat} (hL : L ≤ L') :
    Grown nsyms nbits L' pre table next := by
  refine { h with node := ?_ }
  intro v hv k c n hc hn hle
  have hnode := h.node v hv k c n hc hn hle
  exact ⟨hnode.1, hnode.2.trans_le hL⟩

/-- Where the next word begins, the way ends at an empty entry or goes on. -/
theorem at_span (h : Grown nsyms nbits L pre table next) {P k c n : Nat}
    (hP : P < 2 ^ (nbits + 16)) (hspan : span (nbits + 16) pre = P)
    (hc : cellAt nsyms table P k = some c) (hn : table[c]? = some n) (hlt : n < nsyms) :
    n = 0 ∧ ∀ u, u >>> (16 - k) = P >>> (16 - k) → P ≤ u := by
  obtain hin | hout := h.leaf P hP k c n hc hn hlt
  · have hself := (hin P rfl).2
    omega
  · rwa [hspan] at hout

end Grown

def withNode (table : List Nat) (next leaf : Nat) : List Nat :=
  ((table.set (next <<< 1) 0).set ((next <<< 1) + 1) 0).set leaf next

theorem withNode_length (next leaf : Nat) : (withNode table next leaf).length = table.length := by
  simp only [withNode, List.length_set]

theorem withNode_get {table : List Nat} {leaf : Nat} (hleaf : leaf < 2 * next)
    (hroom : 2 * (next + 1) ≤ table.length) (i : Nat) :
    (withNode table next leaf)[i]? =
      if i = leaf then some next
      else if i = 2 * next ∨ i = 2 * next + 1 then some 0 else table[i]? := by
  have hdouble : next <<< 1 = 2 * next := by rw [Nat.shiftLeft_eq]; omega
  simp only [withNode, List.getElem?_set, List.length_set, hdouble]
  by_cases h1 : i = leaf
  · rw [if_pos h1.symm, if_pos (by omega), if_pos h1]
  · rw [if_neg (Ne.symm h1), if_neg h1]
    by_cases h2 : i = 2 * next + 1
    · rw [if_pos h2.symm, if_pos (by omega), if_pos (Or.inr h2)]
    · rw [if_neg (Ne.symm h2)]
      by_cases h3 : i = 2 * next
      · rw [if_pos h3.symm, if_pos (by omega), if_pos (Or.inl h3)]
      · rw [if_neg (Ne.symm h3), if_neg (by omega)]

section
variable {P k leaf : Nat}

/-- The cells of the grown table: the old ones, and the two below the new node. -/
theorem cellAt_withNode (h : Grown nsyms nbits L pre table next) (hP : P < 2 ^ (nbits + 16))
    (hc : cellAt nsyms table P k = some leaf) (hroom : 2 * (next + 1) ≤ table.length)
    {v j c : Nat} (hv : v < 2 ^ (nbits + 16))
    (hj : cellAt nsyms (withNode table next leaf) v j = some c) :
    cellAt nsyms table v j = some c ∧ c < 2 * next ∨
      j = k + 1 ∧ v >>> (16 - k) = P >>> (16 - k) ∧ c = 2 * next + (v >>> (15 - k)) % 2 := by
  have hleaf := h.cell_lt hP hc
  induction j generalizing c with
  | zero =>
    obtain rfl := Option.some.inj hj
    exact Or.inl ⟨rfl, (shiftRight_lt hv).trans_le h.base⟩
  | succ j ih =>
    obtain ⟨d, n, hd, hn, hle, rfl⟩ := cellAt_succ.mp hj
    rw [withNode_get hleaf hroom] at hn
    obtain ⟨hold, hlt⟩ | ⟨-, -, rfl⟩ := ih hd
    · by_cases hdl : d = leaf
      · rw [if_pos hdl] at hn
        obtain rfl := Option.some.inj hn
        subst hdl
        obtain ⟨rfl, hpre⟩ := h.unique v hv P hP j k d hold hc
        exact Or.inr ⟨rfl, hpre, rfl⟩
      · rw [if_neg hdl, if_neg (by omega)] at hn
        have hcell : cellAt nsyms table v (j + 1) = some (2 * n + (v >>> (15 - j)) % 2) :=
          cellAt_succ.mpr ⟨d, n, hold, hn, hle, rfl⟩
        exact Or.inl ⟨hcell, h.cell_lt hv hcell⟩
    · have hpos := h.syms.1
      rw [if_neg (by omega), if_pos (by omega)] at hn
      obtain rfl := Option.some.inj hn
      omega

theorem cellAt_kept {table' : List Nat} (h : Grown nsyms nbits L pre table next)
    (hP : P < 2 ^ (nbits + 16)) (hc : cellAt nsyms table P k = some leaf)
    (hsame : ∀ d < 2 * next, d ≠ leaf → table'[d]? = table[d]?) {j : Nat} (hj : j ≤ k) :
    cellAt nsyms table' P j = cellAt nsyms table P j := by
  induction j with
  | zero => rfl
  | succ j ih =>
    obtain ⟨d, n, hd, hn, -⟩ := cellAt_before (j := j) hj hc
    have hne : d ≠ leaf := by
      intro heq
      subst heq
      have := (h.unique P hP P hP j k d hd hc).1
      omega
    rw [cellAt, cellAt, ih (by omega), hd]
    simp only [hsame d (h.cell_lt hP hd) hne]

theorem Grown.withNode (h : Grown nsyms nbits L pre table next) (hP : P < 2 ^ (nbits + 16))
    (hspan : span (nbits + 16) pre = P) (hc : cellAt nsyms table P k = some leaf)
    (hzero : table[leaf]? = some 0) (hroom : 2 * (next + 1) ≤ table.length)
    (hk : nbits + k < L) (hk16 : k < 16) :
    Grown nsyms nbits L pre (withNode table next leaf) (next + 1) := by
  have hleaf := h.cell_lt hP hc
  have hget := withNode_get hleaf hroom
  have hcells {v j c : Nat} (hv : v < 2 ^ (nbits + 16)) := fun hj =>
    cellAt_withNode (j := j) (c := c) h hP hc hroom hv hj
  have hpos := h.syms.1
  refine ⟨?_, ?_, ⟨hpos, ?_⟩, ?_, ?_, ?_⟩
  · have := h.base
    omega
  · rw [withNode_length]
    exact hroom
  · have := h.syms.2
    omega
  · intro v hv j c n hj hn hle
    rw [hget] at hn
    obtain ⟨hold, hlt⟩ | ⟨-, -, rfl⟩ := hcells hv hj
    · by_cases hcl : c = leaf
      · rw [if_pos hcl] at hn
        obtain rfl := Option.some.inj hn
        subst hcl
        obtain ⟨rfl, -⟩ := h.unique v hv P hP j k c hold hc
        exact ⟨Nat.lt_add_one _, hk⟩
      · rw [if_neg hcl, if_neg (by omega)] at hn
        obtain ⟨h1, h2⟩ := h.node v hv j c n hold hn hle
        exact ⟨by omega, h2⟩
    · rw [if_neg (by omega), if_pos (by omega)] at hn
      obtain rfl := Option.some.inj hn
      omega
  · intro u hu v hv i j c hi hj
    obtain ⟨hio, hlt⟩ | ⟨rfl, hup, hic⟩ := hcells hu hi
    · obtain ⟨hjo, -⟩ | ⟨-, -, rfl⟩ := hcells hv hj
      · exact h.unique u hu v hv i j c hio hjo
      · omega
    · obtain ⟨-, hlt⟩ | ⟨rfl, hvp, hjc⟩ := hcells hv hj
      · omega
      · have h15 : 16 - (k + 1) = 15 - k := by omega
        refine ⟨rfl, ?_⟩
        rw [shiftRight_half hk16, shiftRight_half (v := P) hk16] at hup hvp
        rw [h15]
        omega
  · intro v hv j c n hj hn hlt
    rw [hget] at hn
    obtain ⟨hold, hcl⟩ | ⟨rfl, hvp, rfl⟩ := hcells hv hj
    · have hne : c ≠ leaf := by
        intro heq
        rw [if_pos heq] at hn
        obtain rfl := Option.some.inj hn
        exact absurd h.syms.2 (by omega)
      rw [if_neg hne, if_neg (by omega)] at hn
      exact h.leaf v hv j c n hold hn hlt
    · rw [if_neg (by omega), if_pos (by omega)] at hn
      obtain rfl := Option.some.inj hn
      refine Or.inr ⟨rfl, ?_⟩
      intro u hu
      rw [hspan]
      exact (h.at_span hP hspan hc hzero hpos).2 u ((shiftRight_of_succ hk16 hu).trans hvp)

/-- The last entry of the way becomes the entry of the next word. -/
theorem Grown.withLeaf {sym l : Nat} (h : Grown nsyms nbits L pre table next)
    (hP : P < 2 ^ (nbits + 16)) (hspan : span (nbits + 16) pre = P)
    (hc : cellAt nsyms table P k = some leaf) (hsym : sym < nsyms) (hl : nbits + k = l)
    (hL : nbits ≤ L ∧ L ≤ 16) (halign : 2 ^ (16 - k) ∣ P) :
    Grown nsyms nbits L (pre ++ [(sym, l)]) (table.set leaf sym) next := by
  have hleaf := h.cell_lt hP hc
  have hget (i : Nat) : (table.set leaf sym)[i]? = if i = leaf then some sym else table[i]? := by
    have hroom := h.room
    rw [List.getElem?_set]
    by_cases hi : i = leaf
    · rw [if_pos hi.symm, if_pos (by omega), if_pos hi]
    · rw [if_neg (Ne.symm hi), if_neg hi]
  have hk := h.depth hP hL.1 hc
  have hweight : nbits + 16 - l = 16 - k := by omega
  have hspan' : span (nbits + 16) (pre ++ [(sym, l)]) = P + 2 ^ (16 - k) := by
    rw [span_append, hspan, span, span, Nat.add_zero, hweight]
  -- no way passes the leaf, so every way was there before
  have hold {v j c : Nat} (hj : cellAt nsyms (table.set leaf sym) v j = some c) :
      cellAt nsyms table v j = some c := by
    induction j generalizing c with
    | zero => exact hj
    | succ j ih =>
      obtain ⟨d, n, hd, hn, hle, rfl⟩ := cellAt_succ.mp hj
      rw [hget] at hn
      by_cases hdl : d = leaf
      · rw [if_pos hdl] at hn
        obtain rfl := Option.some.inj hn
        omega
      · rw [if_neg hdl] at hn
        exact cellAt_succ.mpr ⟨d, n, ih hd, hn, hle, rfl⟩
  have hkept {j : Nat} (hj : j ≤ k) :
      cellAt nsyms (table.set leaf sym) P j = cellAt nsyms table P j :=
    cellAt_kept h hP hc (fun d _ hne => by rw [hget, if_neg hne]) hj
  have hin {v : Nat} (hv : v >>> (16 - k) = P >>> (16 - k)) : P ≤ v ∧ v < P + 2 ^ (16 - k) := by
    rw [Nat.shiftRight_eq_div_pow P, shiftRight_eq_iff, Nat.div_mul_cancel halign] at hv
    exact hv
  refine ⟨h.base, by rw [List.length_set]; exact h.room, h.syms, ?_, ?_, ?_⟩
  · intro v hv j c n hj hn hle
    rw [hget] at hn
    by_cases hcl : c = leaf
    · rw [if_pos hcl] at hn
      obtain rfl := Option.some.inj hn
      omega
    · rw [if_neg hcl] at hn
      exact h.node v hv j c n (hold hj) hn hle
  · intro u hu v hv i j c hi hj
    exact h.unique u hu v hv i j c (hold hi) (hold hj)
  · intro v hv j c n hj hn hlt
    rw [hget] at hn
    by_cases hcl : c = leaf
    · rw [if_pos hcl] at hn
      obtain rfl := Option.some.inj hn
      subst hcl
      obtain ⟨rfl, hvp⟩ := h.unique v hv P hP j k c (hold hj) hc
      refine Or.inl ?_
      intro u hu
      have hbound := hin (hu.trans hvp)
      refine ⟨locate_snoc (by rw [hspan]; exact hbound.1) ?_, by rw [hspan']; exact hbound.2⟩
      rw [hspan, hweight]
      exact hbound.2
    · rw [if_neg hcl] at hn
      obtain hleft | ⟨rfl, hright⟩ := h.leaf v hv j c n (hold hj) hn hlt
      · refine Or.inl ?_
        intro u hu
        obtain ⟨hloc, hlt'⟩ := hleft u hu
        exact ⟨by rw [locate_append_left hlt', hloc], by rw [hspan']; omega⟩
      · refine Or.inr ⟨rfl, ?_⟩
        intro u hu
        rw [hspan']
        by_contra hnot
        have hPu : P ≤ u := hspan ▸ hright u hu
        have hup : u >>> (16 - k) = P >>> (16 - k) := by
          rw [Nat.shiftRight_eq_div_pow P, shiftRight_eq_iff, Nat.div_mul_cancel halign]
          omega
        have hcP : cellAt nsyms (table.set leaf sym) P k = some leaf := by
          rw [hkept le_rfl, hc]
        have hdepth := h.depth hv hL.1 (hold hj)
        obtain hjk | hjk | hjk := Nat.lt_trichotomy j k
        · obtain ⟨d, m, hd, hm, hle⟩ := cellAt_before hjk hcP
          rw [cellAt_congr (by omega) ((shiftRight_mono hjk.le (by omega) hup).symm.trans hu), hj]
            at hd
          obtain rfl := Option.some.inj hd
          rw [hget, if_neg hcl, hn] at hm
          obtain rfl := Option.some.inj hm
          omega
        · subst hjk
          rw [cellAt_congr (by omega) (hu.symm.trans hup), hcP] at hj
          exact hcl (Option.some.inj hj).symm
        · obtain ⟨d, m, hd, hm, hle⟩ := cellAt_before hjk hj
          rw [cellAt_congr (by omega) ((shiftRight_mono hjk.le (by omega) hu).symm.trans hup), hcP]
            at hd
          obtain rfl := Option.some.inj hd
          rw [hget, if_pos rfl] at hm
          obtain rfl := Option.some.inj hm
          omega

end

/-- The nodes that a way of `n` steps to `P` can add: where its interval begins with `P`. -/
def freshCells (P : Nat) : (n fill : Nat) → Nat
  | 0, _ => 0
  | n + 1, fill => (if 2 ^ (16 - fill) ∣ P then 1 else 0) + freshCells P n (fill + 1)

def treeNodes (nbits : Nat) : List (Nat × Nat) → (P : Nat) → Nat
  | [], _ => 0
  | e :: es, P =>
    freshCells P (e.2 - nbits) 0 + treeNodes nbits es (P + 2 ^ (nbits + 16 - e.2))

theorem child_eq (n x : Nat) :
    (if x &&& 1 = 1 then n <<< 1 + 1 else n <<< 1) = 2 * n + x % 2 := by
  rw [Nat.and_one_is_mod, Nat.shiftLeft_eq]
  split <;> omega

theorem openNode_ok {P n fill leaf : Nat} {s : Build}
    (h : Grown nsyms nbits L pre s.table s.next_symbol) (hP : P < 2 ^ (nbits + 16))
    (hspan : span (nbits + 16) pre = P) (hc : cellAt nsyms s.table P fill = some leaf)
    (hL : nbits + fill < L) (hfill : fill < 16)
    (hroom : 2 * (s.next_symbol + freshCells P (n + 1) fill) ≤ s.table.length) :
    ∃ s' x, openNode leaf s = .ok s' ∧ Grown nsyms nbits L pre s'.table s'.next_symbol ∧
      cellAt nsyms s'.table P fill = some leaf ∧ s'.table[leaf]? = some x ∧ nsyms ≤ x ∧
      s'.next_symbol + freshCells P n (fill + 1) ≤ s.next_symbol + freshCells P (n + 1) fill ∧
      s'.pos = s.pos ∧ s'.table.length = s.table.length := by
  have hlt := h.cell_lt hP hc
  have hleaf : leaf < s.table.length := hlt.trans_le h.room
  have hget : s.table[leaf]? = some (s.table.getD leaf 0) := by
    rw [List.getElem?_eq_getElem hleaf, List.getD_eq_getElem _ _ hleaf]
  rw [freshCells] at hroom ⊢
  rw [openNode, loadAt_getD hleaf, ok_bind]
  by_cases hz : s.table.getD leaf 0 = 0
  · rw [hz] at hget
    obtain ⟨-, hall⟩ := h.at_span hP hspan hc hget h.syms.1
    have halign : 2 ^ (16 - fill) ∣ P := by
      have hself : (P / 2 ^ (16 - fill) * 2 ^ (16 - fill)) >>> (16 - fill) = P >>> (16 - fill) := by
        rw [Nat.shiftRight_eq_div_pow, Nat.mul_div_cancel _ (Nat.two_pow_pos _),
          Nat.shiftRight_eq_div_pow]
      have hle := hall _ hself
      have hge := Nat.div_mul_le_self P (2 ^ (16 - fill))
      exact ⟨P / 2 ^ (16 - fill), by rw [Nat.mul_comm]; omega⟩
    rw [if_pos halign] at hroom ⊢
    have hroom' : 2 * (s.next_symbol + 1) ≤ s.table.length := by omega
    have hdouble : s.next_symbol <<< 1 = 2 * s.next_symbol := by
      rw [Nat.shiftLeft_eq]
      omega
    have hget' := withNode_get hlt hroom'
    refine ⟨{ s with table := withNode s.table s.next_symbol leaf,
                     next_symbol := s.next_symbol + 1 }, s.next_symbol, ?_,
      h.withNode hP hspan hc hget hroom' hL hfill, ?_, ?_, h.syms.2, ?_, rfl, withNode_length _ _⟩
    · rw [if_pos hz, storeAt_eq (by omega), ok_bind, storeAt_eq (by rw [List.length_set]; omega),
        ok_bind, storeAt_eq (by rw [List.length_set, List.length_set]; omega)]
      rfl
    · rw [cellAt_kept h hP hc _ le_rfl, hc]
      intro d hd hne
      rw [hget', if_neg hne, if_neg (by omega)]
    · exact (hget' leaf).trans (if_pos rfl)
    · change s.next_symbol + 1 + _ ≤ _
      omega
  · have hle : nsyms ≤ s.table.getD leaf 0 := by
      by_contra hnot
      exact hz (h.at_span hP hspan hc hget (by omega)).1
    refine ⟨s, s.table.getD leaf 0, by rw [if_neg hz]; rfl, h, hc, hget, hle, ?_, rfl, rfl⟩
    omega

theorem descend_ok {P n fill leaf : Nat} {s : Build}
    (h : Grown nsyms nbits L pre s.table s.next_symbol) (hP : P < 2 ^ (nbits + 16))
    (hspan : span (nbits + 16) pre = P) (hc : cellAt nsyms s.table P fill = some leaf)
    (hL : nbits + fill + n ≤ L) (hL16 : L ≤ nbits + 16)
    (hroom : 2 * (s.next_symbol + freshCells P n fill) ≤ s.table.length) :
    ∃ leaf' s', descend P n fill leaf s = .ok (leaf', s') ∧
      Grown nsyms nbits L pre s'.table s'.next_symbol ∧
      cellAt nsyms s'.table P (fill + n) = some leaf' ∧
      s'.next_symbol ≤ s.next_symbol + freshCells P n fill ∧ s'.pos = s.pos ∧
      s'.table.length = s.table.length := by
  induction n generalizing fill leaf s with
  | zero => exact ⟨leaf, s, rfl, h, hc, le_rfl, rfl, rfl⟩
  | succ n ih =>
    obtain ⟨s', x, hopen, h', hc', hx, hle, hnext, hpos, hlen⟩ :=
      openNode_ok h hP hspan hc (by omega) (by omega) hroom
    have hcell := cellAt_succ.mpr ⟨leaf, x, hc', hx, hle, rfl⟩
    obtain ⟨leaf'', s'', hd, hg, hc'', hn, hp, hl⟩ := ih h' hcell (by omega) (by omega)
    refine ⟨leaf'', s'', ?_, hg, ?_, by omega, hp.trans hpos, hl.trans hlen⟩
    · rw [descend, hopen, ok_bind, loadAt, hx, ok_bind]
      simp only
      rw [child_eq, hd]
    · rw [Nat.add_comm n 1, ← Nat.add_assoc]
      exact hc''

theorem span_dvd {M l : Nat} (h : ∀ e ∈ pre, e.2 ≤ l) (hl : l ≤ M) :
    2 ^ (M - l) ∣ span M pre := by
  induction pre with
  | nil => exact Nat.dvd_zero _
  | cons e pre ih =>
    have he := h e List.mem_cons_self
    exact Nat.dvd_add (Nat.pow_dvd_pow 2 (by omega))
      (ih fun x hx => h x (List.mem_cons_of_mem e hx))

theorem placeTree_ok {s : Build} {sym l : Nat}
    (h : Grown nsyms nbits L pre s.table s.next_symbol)
    (hspan : span (nbits + 16) pre = s.pos) (hle : ∀ e ∈ pre, e.2 ≤ l) (hsym : sym < nsyms)
    (hL : nbits ≤ L ∧ L ≤ l) (hl : l ≤ 16)
    (hfit : span (nbits + 16) (pre ++ [(sym, l)]) ≤ 2 ^ (nbits + 16))
    (hroom : 2 * (s.next_symbol + freshCells s.pos (l - nbits) 0) ≤ s.table.length) :
    ∃ s', placeTree nbits l sym s = .ok s' ∧
      Grown nsyms nbits l (pre ++ [(sym, l)]) s'.table s'.next_symbol ∧
      span (nbits + 16) (pre ++ [(sym, l)]) = s'.pos ∧
      s'.next_symbol ≤ s.next_symbol + freshCells s.pos (l - nbits) 0 ∧
      s'.pos = s.pos + 2 ^ (nbits + 16 - l) ∧ s'.table.length = s.table.length := by
  have hspan' : span (nbits + 16) (pre ++ [(sym, l)]) = s.pos + 2 ^ (nbits + 16 - l) := by
    rw [span_append, hspan, span, span, Nat.add_zero]
  have hpow := Nat.two_pow_pos (nbits + 16 - l)
  have hP : s.pos < 2 ^ (nbits + 16) := by omega
  have hdvd := span_dvd (M := nbits + 16) hle (by omega)
  rw [hspan] at hdvd
  obtain ⟨leaf, s', hd, hg, hc, hnext, hpos, hlen⟩ :=
    descend_ok (h.mono hL.2) hP hspan rfl (n := l - nbits) (by omega) (by omega) hroom
  rw [Nat.zero_add] at hc
  have hweight : 16 - (l - nbits) = nbits + 16 - l := by omega
  have hleaf : leaf < s'.table.length := (hg.cell_lt hP hc).trans_le hg.room
  have hmask : 2 ^ 16 >>> (l - nbits) = 2 ^ (nbits + 16 - l) := by
    rw [Nat.shiftRight_eq_div_pow, Nat.pow_div (by omega) Nat.two_pos, hweight]
  have hlimit : 2 ^ nbits <<< 16 = 2 ^ (nbits + 16) := by
    rw [Nat.shiftLeft_eq, ← Nat.pow_add]
  refine ⟨{ s' with table := s'.table.set leaf sym, pos := s.pos + 2 ^ (nbits + 16 - l) }, ?_,
    hg.withLeaf hP hspan hc hsym (by omega) (by omega) (by rwa [hweight]), hspan', hnext, rfl, ?_⟩
  · rw [placeTree, hd, ok_bind]
    simp only
    rw [storeAt_eq hleaf, ok_bind, hmask, hlimit, hpos, if_neg (by omega)]
    rfl
  · rw [List.length_set, hlen]

/-- Any list of words that fit is placed when there is room for its nodes. -/
theorem placeTree_run {es : List (Nat × Nat)} {s : Build}
    (h : Grown nsyms nbits L pre s.table s.next_symbol)
    (hspan : span (nbits + 16) pre = s.pos) (hle : ∀ e ∈ pre, e.2 ≤ L)
    (hasc : Ascending 16 L es) (hes : ∀ e ∈ es, e.1 < nsyms) (hL : nbits ≤ L ∧ L ≤ 16)
    (hfit : span (nbits + 16) (pre ++ es) ≤ 2 ^ (nbits + 16))
    (hroom : 2 * (s.next_symbol + treeNodes nbits es s.pos) ≤ s.table.length) :
    ∃ s', es.foldlM (fun s e => placeTree nbits e.2 e.1 s) s = .ok s' ∧
      Grown nsyms nbits 16 (pre ++ es) s'.table s'.next_symbol ∧
      span (nbits + 16) (pre ++ es) = s'.pos ∧ s'.table.length = s.table.length := by
  induction es generalizing L pre s with
  | nil =>
    rw [List.append_nil]
    exact ⟨s, rfl, h.mono hL.2, hspan, rfl⟩
  | cons e es ih =>
    obtain ⟨hLe, he16, hasc'⟩ := hasc
    have happ : pre ++ e :: es = pre ++ [(e.1, e.2)] ++ es := by simp
    rw [happ] at hfit ⊢
    rw [treeNodes] at hroom
    have hfit' : span (nbits + 16) (pre ++ [(e.1, e.2)]) ≤ 2 ^ (nbits + 16) := by
      rw [span_append] at hfit
      exact (Nat.le_add_right _ _).trans hfit
    obtain ⟨s', hs', hg, hspan', hnext, hpos, hlen⟩ :=
      placeTree_ok h hspan (fun x hx => (hle x hx).trans hLe) (hes e List.mem_cons_self)
        ⟨hL.1, hLe⟩ he16 hfit' (by omega)
    have hle' : ∀ x ∈ pre ++ [(e.1, e.2)], x.2 ≤ e.2 := by
      intro x hx
      obtain hx | hx := List.mem_append.mp hx
      · exact (hle x hx).trans hLe
      · rw [List.mem_singleton.mp hx]
    obtain ⟨s'', hs'', hg', hspan'', hlen'⟩ :=
      ih hg hspan' hle' hasc' (fun x hx => hes x (List.mem_cons_of_mem e hx))
        ⟨hL.1.trans hLe, he16⟩ hfit (by rw [hpos, hlen]; omega)
    refine ⟨s'', ?_, hg', hspan'', hlen'.trans hlen⟩
    rw [List.foldlM_cons, hs', ok_bind, hs'']

/-- The first stage and its zeros are the roots of the tree. -/
theorem grown_of_direct {s : Build} (h : Direct nsyms nbits pre s)
    (hzero : ∀ i, s.pos ≤ i → i < 2 ^ nbits → s.table[i]? = some 0)
    (hbase : 2 ^ nbits ≤ 2 * s.next_symbol) (hroom : 2 * s.next_symbol ≤ s.table.length)
    (hsyms : 0 < nsyms ∧ nsyms ≤ s.next_symbol) :
    Grown nsyms nbits nbits pre s.table s.next_symbol := by
  have hroot {v n : Nat} (hv : v < 2 ^ (nbits + 16)) (hn : s.table[v >>> 16]? = some n) :
      n < nsyms := by
    by_cases hpos : v >>> 16 < s.pos
    · obtain ⟨x, hx, hxi, -⟩ := h.entry _ hpos
      rw [hxi] at hn
      obtain rfl := Option.some.inj hn
      exact hx
    · rw [hzero _ (by omega) (shiftRight_lt hv)] at hn
      obtain rfl := Option.some.inj hn
      exact hsyms.1
  have hdepth {v k c : Nat} (hv : v < 2 ^ (nbits + 16))
      (hc : cellAt nsyms s.table v k = some c) : k = 0 := by
    cases k with
    | zero => rfl
    | succ k =>
      obtain ⟨d, n, hd, hn, hle⟩ := cellAt_before (Nat.succ_pos k) hc
      obtain rfl := Option.some.inj hd
      have := hroot hv hn
      omega
  refine ⟨hbase, hroom, hsyms, ?_, ?_, ?_⟩
  · intro v hv k c n hc hn hle
    obtain rfl := hdepth hv hc
    obtain rfl := Option.some.inj hc
    have := hroot hv hn
    omega
  · intro u hu v hv j k c hj hk
    obtain rfl := hdepth hu hj
    obtain rfl := hdepth hv hk
    exact ⟨rfl, (Option.some.inj hj).trans (Option.some.inj hk).symm⟩
  · intro v hv k c n hc hn hlt
    obtain rfl := hdepth hv hc
    obtain rfl := Option.some.inj hc
    have hlow (u : Nat) (hu : u >>> 16 = v >>> 16) := shiftRight_eq_iff.mp hu
    by_cases hpos : v >>> 16 < s.pos
    · obtain ⟨x, hx, hxi, hloc⟩ := h.entry _ hpos
      rw [hxi] at hn
      obtain rfl := Option.some.inj hn
      refine Or.inl ?_
      intro u hu
      refine ⟨hloc u hu, ?_⟩
      have := hlow u hu
      rw [h.span_eq]
      omega
    · rw [hzero _ (by omega) (shiftRight_lt hv)] at hn
      obtain rfl := Option.some.inj hn
      refine Or.inr ⟨rfl, ?_⟩
      intro u hu
      have := hlow u hu
      rw [h.span_eq]
      omega

/-- Every place of a word leads to its symbol. -/
theorem Grown.leads (h : Grown nsyms nbits L pre table next) (hL : nbits ≤ L ∧ L ≤ 16) {v : Nat}
    (hv : v < 2 ^ (nbits + 16)) (hlt : v < span (nbits + 16) pre) :
    ∃ k c sym, cellAt nsyms table v k = some c ∧ table[c]? = some sym ∧ sym < nsyms ∧
      locate (nbits + 16) pre v = some sym ∧ nbits + k ≤ 16 := by
  have hwalk (fuel k c : Nat) (hk : L ≤ nbits + k + fuel) (hc : cellAt nsyms table v k = some c) :
      ∃ k c sym, cellAt nsyms table v k = some c ∧ table[c]? = some sym ∧ sym < nsyms := by
    induction fuel generalizing k c with
    | zero =>
      have hcl := (h.cell_lt hv hc).trans_le h.room
      refine ⟨k, c, table[c], hc, List.getElem?_eq_getElem hcl, ?_⟩
      by_contra hnot
      have := (h.node v hv k c _ hc (List.getElem?_eq_getElem hcl) (by omega)).2
      omega
    | succ fuel ih =>
      have hcl := (h.cell_lt hv hc).trans_le h.room
      by_cases hle : nsyms ≤ table[c]
      · exact ih (k + 1) _ (by omega)
          (cellAt_succ.mpr ⟨c, table[c], hc, List.getElem?_eq_getElem hcl, hle, rfl⟩)
      · exact ⟨k, c, table[c], hc, List.getElem?_eq_getElem hcl, by omega⟩
  obtain ⟨k, c, sym, hc, hsym, hlt'⟩ := hwalk (L - nbits) 0 (v >>> 16) (by omega) rfl
  have hdepth := h.depth hv hL.1 hc
  obtain hin | ⟨-, hout⟩ := h.leaf v hv k c sym hc hsym hlt'
  · exact ⟨k, c, sym, hc, hsym, hlt', (hin v rfl).1, by omega⟩
  · have := hout v rfl
    omega

structure Shape (nsyms nbits size : Nat) : Prop where
  bits : 0 < nbits ∧ nbits < 16
  syms : 0 < nsyms ∧ nsyms ≤ 2 ^ (nbits - 1)
  size : size = 2 ^ nbits + 2 * nsyms

structure Usable (nsyms nbits : Nat) (length : List Nat) : Prop where
  le : nsyms ≤ length.length
  span_le : span (nbits + 16) (canonical length nsyms) ≤ 2 ^ (nbits + 16)
  nodes : treeNodes nbits (codedFrom length nsyms (16 - nbits) (nbits + 1))
    (span (nbits + 16) (codedFrom length nsyms nbits 1)) ≤ nsyms

theorem Usable.congr {length length' : List Nat} (h : Usable nsyms nbits length)
    (hsame : ∀ s < nsyms, length.getD s 0 = length'.getD s 0) (hle : nsyms ≤ length'.length) :
    Usable nsyms nbits length' := by
  refine ⟨hle, ?_, ?_⟩
  · rw [canonical, ← canonical_congr hsame]
    exact h.span_le
  · rw [← canonical_congr hsame, ← canonical_congr hsame]
    exact h.nodes

def Leads (nsyms nbits : Nat) (length table : List Nat) : Prop :=
  ∀ v < span (nbits + 16) (canonical length nsyms), ∃ k c sym,
    cellAt nsyms table v k = some c ∧ table[c]? = some sym ∧ sym < nsyms ∧
      locate (nbits + 16) (canonical length nsyms) v = some sym ∧ nbits + k ≤ 16

theorem makeDecodeTable_leads {length : List Nat} (hshape : Shape nsyms nbits table.length)
    (h : Usable nsyms nbits length) :
    ∃ status table', makeDecodeTable nsyms nbits length table = some (status, table') ∧
      table'.length = table.length ∧ Leads nsyms nbits length table' := by
  obtain ⟨hbits, hsyms, hsize⟩ := hshape
  have hhalf : 2 ^ nbits >>> 1 = 2 ^ (nbits - 1) := by
    rw [Nat.shiftRight_eq_div_pow, Nat.pow_div (by omega) Nat.two_pos]
  have hdouble : 2 * 2 ^ (nbits - 1) = 2 ^ nbits := by
    rw [← Nat.pow_succ']
    congr 1
    omega
  have hsplit : canonical length nsyms =
      codedFrom length nsyms nbits 1 ++ codedFrom length nsyms (16 - nbits) (nbits + 1) := by
    have h16 : nbits + (16 - nbits) = 16 := by omega
    rw [Nat.add_comm nbits 1, ← codedFrom_add, h16, canonical]
  have hfit := h.span_le
  rw [hsplit] at hfit
  have hfit' := hfit
  rw [span_append] at hfit'
  have hes {n l : Nat} : ∀ e ∈ codedFrom length nsyms n l, e.1 < nsyms ∧ e.2 < l + n := by
    intro e he
    have := mem_codedFrom.mp he
    exact ⟨this.1, this.2.2.2⟩
  have hes' : ∀ e ∈ codedFrom length nsyms nbits 1, e.1 < nsyms ∧ e.2 ≤ nbits := by
    intro e he
    have := hes e he
    omega
  have hfit'' : span (nbits + 16) ([] ++ codedFrom length nsyms nbits 1) ≤ 2 ^ (nbits + 16) := by
    rw [List.nil_append]
    omega
  obtain ⟨s, hs, hd, hlen, hnext, hpos⟩ :=
    placeDirect_run (direct_nil nsyms nbits table (2 ^ nbits >>> 1)) (Nat.zero_le _) hes' hfit''
      (by change 2 ^ nbits ≤ table.length; omega)
  rw [List.nil_append] at hd
  have hlen' : s.table.length = table.length := hlen
  have hnext' : s.next_symbol = 2 ^ (nbits - 1) := hnext.trans hhalf
  have hstage : eachLength length nsyms (placeDirect nbits) nbits 1 ⟨table, 0, 2 ^ nbits >>> 1⟩ =
      .ok s := by
    rw [eachLength_eq h.le, hs]
  by_cases hall : s.pos = 2 ^ nbits
  · have hg := grown_of_direct hd (fun i _ hi => by omega)
      (by omega) (by omega) (by omega)
    refine ⟨true, s.table, ?_, hlen', ?_⟩
    · rw [makeDecodeTable, buildTable, hstage, ok_bind, if_neg (by omega)]
      rfl
    · intro v hv
      have hv' := hv.trans_le h.span_le
      have hspan : span (nbits + 16) (codedFrom length nsyms nbits 1) = 2 ^ (nbits + 16) := by
        rw [hd.span_eq, hall, Nat.pow_add]
      obtain ⟨k, c, sym, hc, hsym, hlt, hloc, hk⟩ :=
        hg.leads ⟨le_rfl, by omega⟩ hv' (by rwa [hspan])
      refine ⟨k, c, sym, hc, hsym, hlt, ?_, hk⟩
      rw [hsplit, locate_append_left (by rwa [hspan]), hloc]
  · have hgap : s.pos + (2 ^ nbits - s.pos) ≤ s.table.length := by omega
    obtain ⟨table', hfill, hflen, hfget⟩ := fillRun_ok 0 hgap
    have hd' : Direct nsyms nbits (codedFrom length nsyms nbits 1) { s with table := table' } := by
      refine ⟨hd.span_eq, ?_⟩
      intro i hi
      obtain ⟨x, hx, hxi, hloc⟩ := hd.entry i hi
      refine ⟨x, hx, ?_, hloc⟩
      change table'[i]? = some x
      change i < s.pos at hi
      rw [hfget, if_neg (by omega), hxi]
    have hg := grown_of_direct hd'
      (fun i hlo hhi => by
        change table'[i]? = some 0
        change s.pos ≤ i at hlo
        rw [hfget, if_pos (by omega)])
      (by change _ ≤ 2 * s.next_symbol; omega)
      (by change 2 * s.next_symbol ≤ table'.length; omega)
      (by change _ ∧ _ ≤ s.next_symbol; omega)
    have hshift : s.pos <<< 16 = s.pos * 2 ^ 16 := Nat.shiftLeft_eq _ _
    obtain ⟨s', hs', hg', hspan', hlen''⟩ :=
      placeTree_run (s := { s with table := table', pos := s.pos <<< 16 }) hg
        (hd.span_eq.trans hshift.symm) (fun e he => by have := (hes e he).2; omega)
        ((ascending_codedFrom (by omega)).mono (Nat.le_add_right nbits 1))
        (fun e he => (hes e he).1) (by omega) hfit
        (by
          have hn := h.nodes
          rw [hd.span_eq, ← hshift] at hn
          change 2 * (s.next_symbol + treeNodes nbits _ (s.pos <<< 16)) ≤ table'.length
          omega)
    have hstage' : eachLength length nsyms (placeTree nbits) (16 - nbits) (nbits + 1)
        { s with table := table', pos := s.pos <<< 16 } = .ok s' := by
      rw [eachLength_eq h.le, hs']
    rw [← hsplit] at hg' hspan'
    have hleads : Leads nsyms nbits length s'.table := by
      intro v hv
      exact hg'.leads ⟨by omega, le_rfl⟩ (hv.trans_le h.span_le) hv
    have hbuild : ∃ status, buildTable nsyms nbits length table = .ok (status, s'.table) := by
      rw [buildTable, hstage, ok_bind, if_pos hall, hfill, ok_bind, hstage', ok_bind]
      by_cases hdone : s'.pos = 2 ^ nbits <<< 16
      · exact ⟨true, by rw [if_pos hdone]; rfl⟩
      · exact ⟨_, by rw [if_neg hdone]; rfl⟩
    obtain ⟨status, hbuild⟩ := hbuild
    exact ⟨status, s'.table, by rw [makeDecodeTable, hbuild], hlen''.trans (hflen.trans hlen'),
      hleads⟩

end AipcOs.LzxTable
