import AipcOs.LzxTable

/-! wincedecompr.py: what the first stage of __make_decode_table leaves in the table. -/
namespace AipcOs.LzxTable
open MsbBits PrefixCode

variable {nsyms nbits : Nat}

theorem ok_bind {α β : Type} (a : α) (f : α → Except Stop β) : (Except.ok a >>= f) = f a := rfl

theorem fillRun_ok (sym : Nat) {n leaf : Nat} {table : List Nat} (h : leaf + n ≤ table.length) :
    ∃ table', fillRun sym n leaf table = .ok table' ∧ table'.length = table.length ∧
      ∀ i, table'[i]? = if leaf ≤ i ∧ i < leaf + n then some sym else table[i]? := by
  induction n generalizing leaf table with
  | zero =>
    refine ⟨table, rfl, rfl, ?_⟩
    intro i
    rw [if_neg (by omega)]
  | succ n ih =>
    have hlt : leaf < table.length := by omega
    have hfit : leaf + 1 + n ≤ (table.set leaf sym).length := by
      rw [List.length_set]
      omega
    obtain ⟨table', hrun, hlen, hget⟩ := ih hfit
    refine ⟨table', ?_, by rw [hlen, List.length_set], ?_⟩
    · rw [fillRun, storeAt_eq hlt, ok_bind, hrun]
    · intro i
      rw [hget]
      by_cases hi : leaf + 1 ≤ i ∧ i < leaf + 1 + n
      · rw [if_pos hi, if_pos (by omega)]
      · rw [if_neg hi, List.getElem?_set]
        by_cases heq : leaf = i
        · rw [if_pos heq, if_pos (heq ▸ hlt), if_pos (by omega)]
        · rw [if_neg heq, if_neg (by omega)]

/-- The first stage has placed the words `pre`: every index below `pos` holds the symbol of all
the places that begin with it. -/
structure Direct (nsyms nbits : Nat) (pre : List (Nat × Nat)) (s : Build) : Prop where
  span_eq : span (nbits + 16) pre = s.pos * 2 ^ 16
  entry : ∀ i < s.pos, ∃ sym < nsyms, s.table[i]? = some sym ∧
    ∀ v, v >>> 16 = i → locate (nbits + 16) pre v = some sym

theorem shiftRight_eq_iff {v i n : Nat} : v >>> n = i ↔ i * 2 ^ n ≤ v ∧ v < i * 2 ^ n + 2 ^ n := by
  rw [Nat.shiftRight_eq_div_pow, Nat.div_eq_iff (Nat.two_pow_pos n)]
  have hpos := Nat.two_pow_pos n
  omega

theorem weight_direct {l : Nat} (hl : l ≤ nbits) :
    2 ^ (nbits + 16 - l) = (2 ^ nbits >>> l) * 2 ^ 16 := by
  rw [Nat.shiftRight_eq_div_pow, Nat.pow_div hl Nat.two_pos, ← Nat.pow_add]
  congr 1
  omega

theorem placeDirect_ok {pre : List (Nat × Nat)} {s : Build} {sym l : Nat}
    (h : Direct nsyms nbits pre s) (hsym : sym < nsyms) (hl : l ≤ nbits)
    (hfit : span (nbits + 16) (pre ++ [(sym, l)]) ≤ 2 ^ (nbits + 16))
    (hsize : 2 ^ nbits ≤ s.table.length) :
    ∃ s', placeDirect nbits l sym s = .ok s' ∧ Direct nsyms nbits (pre ++ [(sym, l)]) s' ∧
      s'.table.length = s.table.length ∧ s'.next_symbol = s.next_symbol ∧ s'.pos ≤ 2 ^ nbits := by
  have hspan : span (nbits + 16) (pre ++ [(sym, l)]) = (s.pos + 2 ^ nbits >>> l) * 2 ^ 16 := by
    rw [span_append, h.span_eq, span, span, Nat.add_zero, weight_direct hl, Nat.add_mul]
  have hpos : s.pos + 2 ^ nbits >>> l ≤ 2 ^ nbits := by
    rw [hspan, Nat.pow_add] at hfit
    exact Nat.le_of_mul_le_mul_right hfit (Nat.two_pow_pos 16)
  obtain ⟨table', hrun, hlen, hget⟩ := fillRun_ok sym (hpos.trans hsize)
  refine ⟨{ s with table := table', pos := s.pos + 2 ^ nbits >>> l }, ?_, ⟨hspan, ?_⟩, hlen, rfl,
    hpos⟩
  · rw [placeDirect]
    simp only
    rw [if_neg (by omega), hrun]
    rfl
  · intro i hi
    change i < s.pos + 2 ^ nbits >>> l at hi
    by_cases hold : i < s.pos
    · obtain ⟨x, hx, hxi, hloc⟩ := h.entry i hold
      refine ⟨x, hx, ?_, ?_⟩
      · change table'[i]? = some x
        rw [hget, if_neg (by omega), hxi]
      · intro v hv
        have hbound := shiftRight_eq_iff.mp hv
        rw [locate_append_left, hloc v hv]
        rw [h.span_eq]
        omega
    · refine ⟨sym, hsym, ?_, ?_⟩
      · change table'[i]? = some sym
        rw [hget, if_pos (by omega)]
      · intro v hv
        have hbound := shiftRight_eq_iff.mp hv
        apply locate_snoc (e := (sym, l))
        · rw [h.span_eq]
          omega
        · rw [h.span_eq, weight_direct hl]
          omega

/-- Any list of words that fit is placed. -/
theorem placeDirect_run {es pre : List (Nat × Nat)} {s : Build}
    (h : Direct nsyms nbits pre s) (hpos : s.pos ≤ 2 ^ nbits)
    (hes : ∀ e ∈ es, e.1 < nsyms ∧ e.2 ≤ nbits)
    (hfit : span (nbits + 16) (pre ++ es) ≤ 2 ^ (nbits + 16))
    (hsize : 2 ^ nbits ≤ s.table.length) :
    ∃ s', es.foldlM (fun s e => placeDirect nbits e.2 e.1 s) s = .ok s' ∧
      Direct nsyms nbits (pre ++ es) s' ∧ s'.table.length = s.table.length ∧
      s'.next_symbol = s.next_symbol ∧ s'.pos ≤ 2 ^ nbits := by
  induction es generalizing pre s with
  | nil => exact ⟨s, rfl, (List.append_nil pre).symm ▸ h, rfl, rfl, hpos⟩
  | cons e es ih =>
    obtain ⟨hsym, hl⟩ := hes e List.mem_cons_self
    have happ : pre ++ e :: es = pre ++ [e] ++ es := by simp
    rw [happ] at hfit ⊢
    have hfit' : span (nbits + 16) (pre ++ [(e.1, e.2)]) ≤ 2 ^ (nbits + 16) := by
      rw [span_append] at hfit
      exact (Nat.le_add_right _ _).trans hfit
    obtain ⟨s', hs', hd', hlen, hnext, hpos'⟩ := placeDirect_ok h hsym hl hfit' hsize
    obtain ⟨s'', hs'', hd'', hlen', hnext', hpos''⟩ :=
      ih hd' hpos' (fun x hx => hes x (List.mem_cons_of_mem e hx)) hfit (by rwa [hlen])
    refine ⟨s'', ?_, hd'', hlen'.trans hlen, hnext'.trans hnext, hpos''⟩
    rw [List.foldlM_cons, hs', ok_bind, hs'']

theorem direct_nil (nsyms nbits : Nat) (table : List Nat) (next : Nat) :
    Direct nsyms nbits [] ⟨table, 0, next⟩ := by
  refine ⟨(Nat.zero_mul _).symm, ?_⟩
  intro i hi
  exact absurd hi (Nat.not_lt_zero i)

end AipcOs.LzxTable
