import AipcOs.PrefixCode

/-! wincedecompr.py: __make_decode_table, the two stages of a decode table. -/
namespace AipcOs.LzxTable
open MsbBits PrefixCode

/-- How a build ends early: by an IndexError or by `return False`. -/
inductive Stop where
  | indexError
  | returned (table : List Nat)

structure Build where
  table : List Nat
  pos : Nat
  next_symbol : Nat

def loadAt (table : List Nat) (i : Nat) : Except Stop Nat :=
  match table[i]? with
  | some v => .ok v
  | none => .error .indexError

def storeAt (table : List Nat) (i v : Nat) : Except Stop (List Nat) :=
  if i < table.length then .ok (table.set i v) else .error .indexError

def fillRun (sym : Nat) : (n leaf : Nat) → List Nat → Except Stop (List Nat)
  | 0, _, table => .ok table
  | n + 1, leaf, table => do fillRun sym n (leaf + 1) (← storeAt table leaf sym)

/-- for sym in range(nsyms): if length[sym] == bit_num. -/
def eachSymbol (length : List Nat) (bit_num : Nat) (act : Nat → Build → Except Stop Build) :
    List Nat → Build → Except Stop Build
  | [], s => .ok s
  | sym :: syms, s => do
    if (← loadAt length sym) = bit_num then eachSymbol length bit_num act syms (← act sym s)
    else eachSymbol length bit_num act syms s

def eachLength (length : List Nat) (nsyms : Nat) (act : Nat → Nat → Build → Except Stop Build) :
    (n bit_num : Nat) → Build → Except Stop Build
  | 0, _, s => .ok s
  | n + 1, bit_num, s => do
    eachLength length nsyms act n (bit_num + 1)
      (← eachSymbol length bit_num (act bit_num) (List.range nsyms) s)

def placeDirect (nbits bit_num sym : Nat) (s : Build) : Except Stop Build := do
  let bit_mask := 2 ^ nbits >>> bit_num
  let pos := s.pos + bit_mask
  if pos > 2 ^ nbits then throw (.returned s.table)
  let table ← fillRun sym bit_mask s.pos s.table
  return { s with table, pos }

def openNode (leaf : Nat) (s : Build) : Except Stop Build := do
  if (← loadAt s.table leaf) = 0 then
    let table ← storeAt s.table (s.next_symbol <<< 1) 0
    let table ← storeAt table ((s.next_symbol <<< 1) + 1) 0
    let table ← storeAt table leaf s.next_symbol
    return { s with table, next_symbol := s.next_symbol + 1 }
  else return s

/-- for fill in range(n): the way down to a leaf. -/
def descend (pos : Nat) : (n fill leaf : Nat) → Build → Except Stop (Nat × Build)
  | 0, _, leaf, s => .ok (leaf, s)
  | n + 1, fill, leaf, s => do
    let s ← openNode leaf s
    let child := (← loadAt s.table leaf) <<< 1
    descend pos n (fill + 1) (if (pos >>> (15 - fill)) &&& 1 = 1 then child + 1 else child) s

def placeTree (nbits bit_num sym : Nat) (s : Build) : Except Stop Build := do
  let (leaf, s) ← descend s.pos (bit_num - nbits) 0 (s.pos >>> 16) s
  let table ← storeAt s.table leaf sym
  let pos := s.pos + 2 ^ 16 >>> (bit_num - nbits)
  if pos > 2 ^ nbits <<< 16 then throw (.returned table)
  return { s with table, pos }

def buildTable (nsyms nbits : Nat) (length table : List Nat) : Except Stop (Bool × List Nat) := do
  let table_mask := 2 ^ nbits
  let s ← eachLength length nsyms (placeDirect nbits) nbits 1 ⟨table, 0, table_mask >>> 1⟩
  if s.pos ≠ table_mask then
    let table ← fillRun 0 (table_mask - s.pos) s.pos s.table
    let s ← eachLength length nsyms (placeTree nbits) (16 - nbits) (nbits + 1)
      { s with table, pos := s.pos <<< 16 }
    if s.pos = table_mask <<< 16 then return (true, s.table)
    return (decide (∀ l ∈ length.take nsyms, l = 0), s.table)
  return (true, s.table)

def makeDecodeTable (nsyms nbits : Nat) (length table : List Nat) : Option (Bool × List Nat) :=
  match buildTable nsyms nbits length table with
  | .ok r => some r
  | .error (.returned table) => some (false, table)
  | .error .indexError => none

def coded (length : List Nat) (nsyms l : Nat) : List (Nat × Nat) :=
  ((List.range nsyms).filter fun s => length.getD s 0 = l).map fun s => (s, l)

def codedFrom (length : List Nat) (nsyms : Nat) : (n l : Nat) → List (Nat × Nat)
  | 0, _ => []
  | n + 1, l => coded length nsyms l ++ codedFrom length nsyms n (l + 1)

def canonical (length : List Nat) (nsyms : Nat) : List (Nat × Nat) :=
  codedFrom length nsyms 16 1

def wordOf (length : List Nat) (nsyms s : Nat) : List Bool :=
  ((wordsFrom 0 0 (canonical length nsyms)).lookup s).getD []

variable {length : List Nat} {nsyms : Nat}

theorem mem_coded {e : Nat × Nat} {l : Nat} :
    e ∈ coded length nsyms l ↔ e.1 < nsyms ∧ length.getD e.1 0 = l ∧ e.2 = l := by
  obtain ⟨s, m⟩ := e
  simp only [coded, List.mem_map, List.mem_filter, List.mem_range, decide_eq_true_eq,
    Prod.mk.injEq]
  constructor
  · intro h
    obtain ⟨x, ⟨hx, hl⟩, rfl, rfl⟩ := h
    exact ⟨hx, hl, rfl⟩
  · intro h
    obtain ⟨hs, hl, rfl⟩ := h
    exact ⟨s, ⟨hs, hl⟩, rfl, rfl⟩

theorem mem_codedFrom {e : Nat × Nat} {n l : Nat} :
    e ∈ codedFrom length nsyms n l ↔
      e.1 < nsyms ∧ length.getD e.1 0 = e.2 ∧ l ≤ e.2 ∧ e.2 < l + n := by
  induction n generalizing l with
  | zero =>
    simp only [codedFrom, List.not_mem_nil, false_iff]
    omega
  | succ n ih =>
    rw [codedFrom, List.mem_append, mem_coded, ih]
    constructor
    · intro h
      obtain h | h := h <;> omega
    · intro h
      by_cases heq : e.2 = l
      · exact Or.inl ⟨h.1, by omega, heq⟩
      · exact Or.inr ⟨h.1, h.2.1, by omega, by omega⟩

theorem codedFrom_add (m n l : Nat) :
    codedFrom length nsyms (m + n) l =
      codedFrom length nsyms m l ++ codedFrom length nsyms n (l + m) := by
  induction m generalizing l with
  | zero => rw [Nat.zero_add, codedFrom, List.nil_append, Nat.add_zero]
  | succ m ih =>
    rw [Nat.add_right_comm, codedFrom, ih, codedFrom, List.append_assoc, Nat.add_right_comm l 1 m,
      Nat.add_assoc l m 1]

/-- Only the lengths of the symbols count. -/
theorem canonical_congr {length' : List Nat}
    (h : ∀ s < nsyms, length.getD s 0 = length'.getD s 0) (n l : Nat) :
    codedFrom length nsyms n l = codedFrom length' nsyms n l := by
  induction n generalizing l with
  | zero => rfl
  | succ n ih =>
    rw [codedFrom, codedFrom, ih, coded, coded]
    congr 2
    apply List.filter_congr
    intro s hs
    rw [h s (List.mem_range.mp hs)]

theorem wordOf_congr {length' : List Nat} (h : ∀ s < nsyms, length.getD s 0 = length'.getD s 0)
    (s : Nat) : wordOf length nsyms s = wordOf length' nsyms s := by
  rw [wordOf, wordOf, canonical, canonical, canonical_congr h]

theorem ascending_append {M l : Nat} {ss : List Nat} {es : List (Nat × Nat)} (hM : l ≤ M)
    (h : Ascending M l es) : Ascending M l (ss.map (fun s => (s, l)) ++ es) := by
  induction ss with
  | nil => exact h
  | cons s ss ih => exact ⟨le_rfl, hM, ih⟩

theorem ascending_codedFrom {M n l : Nat} (h : l + n ≤ M + 1) :
    Ascending M l (codedFrom length nsyms n l) := by
  induction n generalizing l with
  | zero => trivial
  | succ n ih =>
    have hrest := ih (l := l + 1) (by omega)
    exact ascending_append (by omega) (hrest.mono (Nat.le_add_right l 1))

theorem lookup_mem {α β : Type} [BEq α] [LawfulBEq α] {xs : List (α × β)} {a : α} {b : β}
    (h : (a, b) ∈ xs) : ∃ c, xs.lookup a = some c ∧ (a, c) ∈ xs := by
  induction xs with
  | nil => cases h
  | cons x xs ih =>
    obtain ⟨k, c⟩ := x
    rw [List.lookup_cons]
    cases hk : a == k with
    | true =>
      obtain rfl := eq_of_beq hk
      exact ⟨c, rfl, List.mem_cons_self⟩
    | false =>
      obtain h | h := List.mem_cons.mp h
      · obtain ⟨rfl, -⟩ := Prod.mk.inj h
        rw [beq_self_eq_true] at hk
        cases hk
      · obtain ⟨d, hd, hmem⟩ := ih h
        exact ⟨d, hd, List.mem_cons_of_mem _ hmem⟩

/-- A symbol with a length has a word, of that length. -/
theorem wordOf_mem {s : Nat} (hs : s < nsyms) (hpos : 0 < length.getD s 0)
    (hle : length.getD s 0 ≤ 16) :
    (s, wordOf length nsyms s) ∈ wordsFrom 0 0 (canonical length nsyms) := by
  have hmem : (s, length.getD s 0) ∈ canonical length nsyms :=
    mem_codedFrom.mpr ⟨hs, rfl, hpos, by omega⟩
  obtain ⟨w, hw⟩ := exists_word (c := 0) (l := 0) hmem
  obtain ⟨w', hlook, hw'⟩ := lookup_mem hw
  rw [wordOf, hlook]
  exact hw'

theorem wordOf_length {s : Nat} (hs : s < nsyms) (hpos : 0 < length.getD s 0)
    (hle : length.getD s 0 ≤ 16) : (wordOf length nsyms s).length = length.getD s 0 := by
  have h := wordsFrom_length (wordOf_mem hs hpos hle)
  exact (mem_codedFrom.mp h).2.1.symm

theorem loadAt_getD {table : List Nat} {i : Nat} (h : i < table.length) :
    loadAt table i = .ok (table.getD i 0) := by
  rw [loadAt, List.getElem?_eq_getElem h, List.getD_eq_getElem _ _ h]

theorem storeAt_eq {table : List Nat} {i : Nat} (h : i < table.length) (v : Nat) :
    storeAt table i v = .ok (table.set i v) := by
  rw [storeAt, if_pos h]

theorem eachSymbol_eq {act : Nat → Build → Except Stop Build} {l : Nat} {syms : List Nat}
    (h : ∀ s ∈ syms, s < length.length) (s : Build) :
    eachSymbol length l act syms s =
      (syms.filter fun s => length.getD s 0 = l).foldlM (fun s sym => act sym s) s := by
  induction syms generalizing s with
  | nil => rfl
  | cons x syms ih =>
    have hrest : ∀ s ∈ syms, s < length.length := fun y hy => h y (List.mem_cons_of_mem x hy)
    rw [eachSymbol, loadAt_getD (h x List.mem_cons_self), List.filter_cons]
    by_cases hx : length.getD x 0 = l
    · rw [if_pos (decide_eq_true hx), List.foldlM_cons]
      change (if _ then _ else _) = _
      rw [if_pos hx]
      congr 1
      funext s'
      exact ih hrest s'
    · rw [if_neg (by simpa using hx)]
      change (if _ then _ else _) = _
      rw [if_neg hx]
      exact ih hrest s

/-- The two loops of a stage are one over the symbols in the order of their words. -/
theorem eachLength_eq {act : Nat → Nat → Build → Except Stop Build} (h : nsyms ≤ length.length)
    (n l : Nat) (s : Build) :
    eachLength length nsyms act n l s =
      (codedFrom length nsyms n l).foldlM (fun s e => act e.2 e.1 s) s := by
  induction n generalizing l s with
  | zero => rfl
  | succ n ih =>
    have hsyms : ∀ x ∈ List.range nsyms, x < length.length := by
      intro x hx
      exact (List.mem_range.mp hx).trans_le h
    rw [eachLength, eachSymbol_eq hsyms, codedFrom, List.foldlM_append, coded, List.foldlM_map]
    congr 1
    funext s'
    exact ih (l + 1) s'

end AipcOs.LzxTable
