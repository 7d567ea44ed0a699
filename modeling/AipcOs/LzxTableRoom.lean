import AipcOs.LzxTableTree
import Mathlib.Algebra.BigOperators.Group.Finset.Piecewise
import Mathlib.Algebra.Order.BigOperators.Group.Finset

/-! wincedecompr.py: how many nodes the second stage of __make_decode_table needs. -/
namespace AipcOs.LzxTable
open PrefixCode
open scoped BigOperators

/-- The empty right halves beside the way to `P`. -/
def openCells (P : Nat) : Nat :=
  ∑ k ∈ Finset.range 16, if 0 < P % 2 ^ (16 - k) ∧ P % 2 ^ (16 - k) ≤ 2 ^ (15 - k) then 1 else 0

def middles (P : Nat) : Nat :=
  ∑ k ∈ Finset.range 16, if P % 2 ^ (16 - k) = 2 ^ (15 - k) then 1 else 0

theorem freshCells_eq (P n fill : Nat) :
    freshCells P n fill =
      ∑ k ∈ Finset.range n, if 2 ^ (16 - (fill + k)) ∣ P then 1 else 0 := by
  induction n generalizing fill with
  | zero => rfl
  | succ n ih =>
    rw [freshCells, ih, Finset.sum_range_succ', Nat.add_zero, Nat.add_comm]
    congr 1
    apply Finset.sum_congr rfl
    intro k _
    rw [Nat.add_right_comm, Nat.add_assoc]

/-- The middles of smaller intervals are not those of larger ones. -/
theorem middles_le_one (P : Nat) : middles P ≤ 1 := by
  rw [middles, ← Finset.card_filter, Finset.card_le_one]
  have hlt {j k : Nat} (hjk : j < k) (hk : k < 16) (hj : P % 2 ^ (16 - j) = 2 ^ (15 - j))
      (hP : P % 2 ^ (16 - k) = 2 ^ (15 - k)) : False := by
    have hdvd : 2 ^ (16 - k) ∣ 2 ^ (16 - j) := Nat.pow_dvd_pow 2 (by omega)
    have hdvd' : 2 ^ (16 - k) ∣ 2 ^ (15 - j) := Nat.pow_dvd_pow 2 (by omega)
    have hzero : P % 2 ^ (16 - k) = 0 := by
      rw [← Nat.mod_mod_of_dvd P hdvd, hj]
      exact Nat.mod_eq_zero_of_dvd hdvd'
    have := Nat.two_pow_pos (15 - k)
    omega
  intro j hj k hk
  obtain ⟨hj16, hjP⟩ := Finset.mem_filter.mp hj
  obtain ⟨hk16, hkP⟩ := Finset.mem_filter.mp hk
  obtain h | h | h := Nat.lt_trichotomy j k
  · exact (hlt h (Finset.mem_range.mp hk16) hjP hkP).elim
  · exact h
  · exact (hlt h (Finset.mem_range.mp hj16) hkP hjP).elim

theorem mod_add_of_lt {P w z : Nat} (hlt : P % z + w < z) : (P + w) % z = P % z + w := by
  rw [Nat.add_mod, Nat.mod_eq_of_lt (by omega : w < z), Nat.mod_eq_of_lt hlt]

theorem openCell_step {P d k : Nat} (hd : d ≤ 16) (hk : k < 16) (hP : 2 ^ (16 - d) ∣ P) :
    (if k < d ∧ 2 ^ (16 - k) ∣ P then 1 else 0) +
        (if 0 < P % 2 ^ (16 - k) ∧ P % 2 ^ (16 - k) ≤ 2 ^ (15 - k) then 1 else 0) ≤
      (if 0 < (P + 2 ^ (16 - d)) % 2 ^ (16 - k) ∧
          (P + 2 ^ (16 - d)) % 2 ^ (16 - k) ≤ 2 ^ (15 - k) then 1 else 0) +
        (if P % 2 ^ (16 - k) = 2 ^ (15 - k) then 1 else 0) := by
  by_cases hkd : k < d
  · have hw := Nat.two_pow_pos (16 - d)
    have hz : 2 ^ (16 - k) = 2 * 2 ^ (15 - k) := by
      rw [← Nat.pow_succ']
      congr 1
      omega
    obtain ⟨c, hc⟩ : 2 ^ (16 - d) ∣ 2 ^ (15 - k) := Nat.pow_dvd_pow 2 (by omega)
    have hwz : 2 ^ (16 - d) ∣ 2 ^ (16 - k) := Nat.pow_dvd_pow 2 (by omega)
    obtain ⟨m, hm⟩ : 2 ^ (16 - d) ∣ P % 2 ^ (16 - k) := (Nat.dvd_mod_iff hwz).mpr hP
    have hhalf := Nat.two_pow_pos (15 - k)
    have hcpos : 0 < c := by
      rcases Nat.eq_zero_or_pos c with rfl | h
      · omega
      · exact h
    have hw15 : 2 ^ (16 - d) ≤ 2 ^ (15 - k) := hc ▸ Nat.le_mul_of_pos_right _ hcpos
    by_cases hmid : P % 2 ^ (16 - k) = 2 ^ (15 - k)
    · have hndvd : ¬ 2 ^ (16 - k) ∣ P := by
        intro h
        rw [Nat.mod_eq_zero_of_dvd h] at hmid
        omega
      rw [if_neg (fun h => hndvd h.2), if_pos hmid]
      split <;> omega
    · by_cases hlow : P % 2 ^ (16 - k) < 2 ^ (15 - k)
      · have hle : P % 2 ^ (16 - k) + 2 ^ (16 - d) ≤ 2 ^ (15 - k) := by
          rw [hm, hc] at hlow ⊢
          have hmc : m < c := lt_of_mul_lt_mul_left hlow (Nat.zero_le _)
          calc 2 ^ (16 - d) * m + 2 ^ (16 - d) = 2 ^ (16 - d) * (m + 1) := by rw [Nat.mul_succ]
            _ ≤ 2 ^ (16 - d) * c := Nat.mul_le_mul_left _ hmc
        have hin : 0 < P % 2 ^ (16 - k) + 2 ^ (16 - d) ∧
            P % 2 ^ (16 - k) + 2 ^ (16 - d) ≤ 2 ^ (15 - k) := ⟨Nat.add_pos_right _ hw, hle⟩
        have hlt : 2 ^ (15 - k) < 2 ^ (16 - k) := by omega
        rw [mod_add_of_lt (hle.trans_lt hlt), if_pos hin]
        by_cases hzero : P % 2 ^ (16 - k) = 0
        · have hnot : ¬(0 < P % 2 ^ (16 - k) ∧ P % 2 ^ (16 - k) ≤ 2 ^ (15 - k)) := by
            intro h
            omega
          rw [if_neg hnot]
          split <;> omega
        · rw [if_neg (fun h => hzero (Nat.mod_eq_zero_of_dvd h.2))]
          split <;> omega
      · have hndvd : ¬ 2 ^ (16 - k) ∣ P := by
          intro h
          rw [Nat.mod_eq_zero_of_dvd h] at hlow
          omega
        have hnot : ¬(0 < P % 2 ^ (16 - k) ∧ P % 2 ^ (16 - k) ≤ 2 ^ (15 - k)) := by
          intro h
          omega
        rw [if_neg (fun h => hndvd h.2), if_neg hnot]
        exact Nat.zero_le _
  · have hzero : P % 2 ^ (16 - k) = 0 :=
      Nat.mod_eq_zero_of_dvd ((Nat.pow_dvd_pow 2 (by omega)).trans hP)
    rw [if_neg (fun h => hkd h.1), hzero, if_neg (fun h => Nat.lt_irrefl 0 h.1)]
    exact Nat.zero_le _

/-- A word of depth `d` adds at most one node more than it closes cells. -/
theorem freshCells_step {P d : Nat} (hd : d ≤ 16) (hP : 2 ^ (16 - d) ∣ P) :
    freshCells P d 0 + openCells P ≤ openCells (P + 2 ^ (16 - d)) + 1 := by
  have hfresh : freshCells P d 0 =
      ∑ k ∈ Finset.range 16, if k < d ∧ 2 ^ (16 - k) ∣ P then 1 else 0 := by
    rw [freshCells_eq, ← Finset.card_filter, ← Finset.card_filter]
    congr 1
    ext k
    simp only [Finset.mem_filter, Finset.mem_range, Nat.zero_add]
    constructor
    · intro h
      exact ⟨by omega, h⟩
    · intro h
      exact h.2
  calc freshCells P d 0 + openCells P
      ≤ openCells (P + 2 ^ (16 - d)) + middles P := by
        rw [hfresh, openCells, openCells, middles, ← Finset.sum_add_distrib,
          ← Finset.sum_add_distrib]
        apply Finset.sum_le_sum
        intro k hk
        exact openCell_step hd (Finset.mem_range.mp hk) hP
    _ ≤ openCells (P + 2 ^ (16 - d)) + 1 := Nat.add_le_add_left (middles_le_one P) _

variable {nsyms nbits L : Nat} {length : List Nat}

theorem treeNodes_le {es : List (Nat × Nat)} {P : Nat} (hasc : Ascending 16 L es)
    (hL : nbits ≤ L ∧ L ≤ 16) (hP : 2 ^ (nbits + 16 - L) ∣ P) :
    treeNodes nbits es P + openCells P ≤ es.length + openCells (P + span (nbits + 16) es) := by
  induction es generalizing L P with
  | nil => simp [treeNodes, span]
  | cons e es ih =>
    obtain ⟨hLe, he, hasc'⟩ := hasc
    have hP' : 2 ^ (nbits + 16 - e.2) ∣ P := (Nat.pow_dvd_pow 2 (by omega)).trans hP
    have hw : nbits + 16 - e.2 = 16 - (e.2 - nbits) := by omega
    have hstep := freshCells_step (P := P) (d := e.2 - nbits) (by omega) (by rwa [← hw])
    have hrest := ih (P := P + 2 ^ (nbits + 16 - e.2)) hasc' ⟨by omega, he⟩
      (Nat.dvd_add hP' (Nat.dvd_refl _))
    rw [treeNodes, span, List.length_cons, ← Nat.add_assoc]
    rw [← hw] at hstep
    omega

theorem codedFrom_nodup (n l : Nat) : ((codedFrom length nsyms n l).map Prod.fst).Nodup := by
  induction n generalizing l with
  | zero => exact List.nodup_nil
  | succ n ih =>
    rw [codedFrom, List.map_append, List.nodup_append]
    refine ⟨?_, ih (l + 1), ?_⟩
    · rw [coded, List.map_map]
      have hid : (Prod.fst ∘ fun s : Nat => (s, l)) = id := rfl
      rw [hid, List.map_id]
      exact List.nodup_range.filter _
    · intro a ha b hb hab
      obtain ⟨x, hx, rfl⟩ := List.mem_map.mp ha
      obtain ⟨y, hy, rfl⟩ := List.mem_map.mp hb
      have hx' := (mem_coded.mp hx).2.1
      have hy' := mem_codedFrom.mp hy
      rw [hab] at hx'
      omega

theorem codedFrom_length_le (n l : Nat) : (codedFrom length nsyms n l).length ≤ nsyms := by
  have hsub : (codedFrom length nsyms n l).map Prod.fst ⊆ List.range nsyms := by
    intro s hs
    obtain ⟨e, he, rfl⟩ := List.mem_map.mp hs
    exact List.mem_range.mpr (mem_codedFrom.mp he).1
  have hle := ((codedFrom_nodup n l).subperm hsub).length_le
  rwa [List.length_map, List.length_range] at hle

/-- Words that fill the space leave room for every node. -/
theorem usable_of_complete (hbits : nbits < 16) (hle : nsyms ≤ length.length)
    (h : span (nbits + 16) (canonical length nsyms) = 2 ^ (nbits + 16)) :
    Usable nsyms nbits length := by
  refine ⟨hle, h.le, ?_⟩
  have hsplit : canonical length nsyms =
      codedFrom length nsyms nbits 1 ++ codedFrom length nsyms (16 - nbits) (nbits + 1) := by
    have h16 : nbits + (16 - nbits) = 16 := by omega
    rw [Nat.add_comm nbits 1, ← codedFrom_add, h16, canonical]
  rw [hsplit, span_append] at h
  have hdvd : 2 ^ (nbits + 16 - nbits) ∣ span (nbits + 16) (codedFrom length nsyms nbits 1) := by
    apply span_dvd _ (by omega)
    intro e he
    have := (mem_codedFrom.mp he).2.2.2
    omega
  have hasc : Ascending 16 nbits (codedFrom length nsyms (16 - nbits) (nbits + 1)) :=
    (ascending_codedFrom (by omega)).mono (Nat.le_add_right nbits 1)
  have hnodes := treeNodes_le hasc (by omega) hdvd
  have hend : openCells (2 ^ (nbits + 16)) = 0 := by
    apply Finset.sum_eq_zero
    intro k _
    have hzero : 2 ^ (nbits + 16) % 2 ^ (16 - k) = 0 :=
      Nat.mod_eq_zero_of_dvd (Nat.pow_dvd_pow 2 (by omega))
    rw [hzero, if_neg (fun hlt => Nat.lt_irrefl 0 hlt.1)]
  rw [h, hend] at hnodes
  have hlen : (codedFrom length nsyms (16 - nbits) (nbits + 1)).length ≤ nsyms :=
    codedFrom_length_le _ _
  omega

/-- Without a coded symbol there is nothing to place. -/
theorem usable_of_empty (hle : nsyms ≤ length.length)
    (h : ∀ s < nsyms, length.getD s 0 = 0) : Usable nsyms nbits length := by
  have hnil (n l : Nat) (hl : 0 < l) : codedFrom length nsyms n l = [] := by
    apply List.eq_nil_iff_forall_not_mem.mpr
    intro e he
    obtain ⟨hs, hlen, hpos, -⟩ := mem_codedFrom.mp he
    rw [h e.1 hs] at hlen
    omega
  refine ⟨hle, ?_, ?_⟩
  · rw [canonical, hnil 16 1 Nat.zero_lt_one]
    exact Nat.zero_le _
  · rw [hnil _ _ (Nat.succ_pos nbits)]
    exact Nat.zero_le _

/-- What the words of the symbols take of the space of 16 bits. -/
def kraft (length : List Nat) (nsyms : Nat) : Nat :=
  ((List.range nsyms).map fun s =>
    if 0 < length.getD s 0 ∧ length.getD s 0 ≤ 16 then 2 ^ (16 - length.getD s 0) else 0).sum

theorem span_coded (M l : Nat) :
    span M (coded length nsyms l) = ((List.range nsyms).map fun s =>
      if length.getD s 0 = l then 2 ^ (M - l) else 0).sum := by
  rw [coded]
  generalize List.range nsyms = xs
  induction xs with
  | nil => rfl
  | cons x xs ih =>
    rw [List.filter_cons, List.map_cons, List.sum_cons]
    by_cases hx : length.getD x 0 = l
    · rw [if_pos (decide_eq_true hx), if_pos hx, List.map_cons, span, ih]
    · rw [if_neg (by simpa using hx), if_neg hx, Nat.zero_add, ih]

theorem span_codedFrom (M n l : Nat) :
    span M (codedFrom length nsyms n l) = ((List.range nsyms).map fun s =>
      if l ≤ length.getD s 0 ∧ length.getD s 0 < l + n then 2 ^ (M - length.getD s 0) else 0).sum := by
  induction n generalizing l with
  | zero =>
    symm
    apply List.sum_eq_zero
    intro x hx
    obtain ⟨s, -, rfl⟩ := List.mem_map.mp hx
    exact if_neg (by omega)
  | succ n ih =>
    rw [codedFrom, span_append, span_coded, ih, ← List.sum_map_add]
    congr 1
    apply List.map_congr_left
    intro s _
    by_cases hl : length.getD s 0 = l
    · rw [if_pos hl, if_neg (by omega), if_pos (by omega), hl]
      rfl
    · rw [if_neg hl, Nat.zero_add]
      congr 1
      apply propext
      omega

theorem span_canonical (nbits : Nat) :
    span (nbits + 16) (canonical length nsyms) = kraft length nsyms * 2 ^ nbits := by
  have hle : ∀ e ∈ canonical length nsyms, e.2 ≤ 16 := by
    intro e he
    have hmem := mem_codedFrom.mp he
    omega
  have hsum : span 16 (canonical length nsyms) = kraft length nsyms := by
    rw [canonical, span_codedFrom, kraft]
    congr 1
    apply List.map_congr_left
    intro s _
    congr 1
    apply propext
    omega
  rw [Nat.add_comm, span_add hle, hsum]

theorem usable_of_kraft (hbits : nbits < 16) (hle : nsyms ≤ length.length)
    (h : kraft length nsyms = 2 ^ 16) : Usable nsyms nbits length := by
  refine usable_of_complete hbits hle ?_
  rw [span_canonical, h, ← Nat.pow_add, Nat.add_comm]

/-- For a complete code the table has room for every node, whatever stood in it. -/
theorem complete_code_builds {table : List Nat} (hshape : Shape nsyms nbits table.length)
    (hle : nsyms ≤ length.length) (h : kraft length nsyms = 2 ^ 16) :
    ∃ status table', makeDecodeTable nsyms nbits length table = some (status, table') ∧
      table'.length = table.length ∧ Leads nsyms nbits length table' :=
  makeDecodeTable_leads hshape (usable_of_kraft hshape.bits.2 hle h)

theorem complete_code_builds_deep :
    kraft [1, 2, 3, 4, 5, 6, 7, 7] 8 = 2 ^ 16 ∧
      ∃ status table', makeDecodeTable 8 4 [1, 2, 3, 4, 5, 6, 7, 7] (List.replicate 32 0) =
        some (status, table') ∧ table'.length = (List.replicate 32 0).length ∧
          Leads 8 4 [1, 2, 3, 4, 5, 6, 7, 7] table' :=
  ⟨by decide, complete_code_builds ⟨by decide, by decide, by decide⟩ (by decide) (by decide)⟩

end AipcOs.LzxTable
