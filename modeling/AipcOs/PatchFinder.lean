import AipcOs.WordPattern

/-! lib/pf.c, and the patches of cfw that fire once. -/
namespace AipcOs.PatchFinder
open ByteMemory WordPattern

structure State (ρ : Type) where
  mem : Image 32
  rest : ρ

/-- pf_patch_t of pf_maskmatch. A callback gets has_fired and the place of the stream; an error is
the text of a panic. -/
structure Patch (ρ : Type) where
  name : String
  pairs : List (Entry 32)
  is_required : Bool
  has_fired : Bool
  should_match : Bool
  pf_callback : Bool → Nat → State ρ → Except String (Bool × State ρ)

structure PatchSet (ρ : Type) where
  patches : List (Patch ρ)
  is_required : Bool

variable {ρ : Type}

def pfPatchsetCreate : PatchSet ρ := ⟨[], true⟩

/-- Patterns of less than 8 words are compared with what was read ahead. -/
def maskmatchMatch32 (pairs : List (Entry 32)) (preread : List Word) (stream : Image 32) : Bool :=
  (List.range pairs.length).all fun i => pairs[i]?.all fun p =>
    if pairs.length < 8 then preread.getD i 0 &&& p.2 == p.1 else stream i &&& p.2 == p.1

def pfMatch (p : Patch ρ) (preread : List Word) (index : Nat) (s : State ρ) :
    Except String (Patch ρ × State ρ) :=
  if maskmatchMatch32 p.pairs preread fun i => s.mem (index + i) then
    match p.pf_callback p.has_fired index s with
    | .error e => .error e
    | .ok (fired, s) => .ok ({ p with has_fired := p.has_fired || fired }, s)
  else .ok (p, s)

def pfMaskmatch (set : PatchSet ρ) (name : String) (pairs : List (Entry 32)) (required : Bool)
    (callback : Bool → Nat → State ρ → Except String (Bool × State ρ)) :
    Except String (PatchSet ρ) :=
  match pairs.findIdx? fun p => p.1 &&& p.2 != p.1 with
  | some i => .error ("Bad maskmatch: " ++ name ++ " (index " ++ toString i ++ ")")
  | none =>
    let mm : Patch ρ :=
      { name, pairs, is_required := required, has_fired := false, should_match := true
        pf_callback := callback }
    .ok { set with patches := mm :: set.patches }

def matchAll (reads : List Word) (index : Nat) :
    List (Patch ρ) → State ρ → Except String (List (Patch ρ) × State ρ)
  | [], s => .ok ([], s)
  | p :: ps, s => do
    let (p, s) ← if p.should_match then pfMatch p reads index s else .ok (p, s)
    let (ps, s) ← matchAll reads index ps s
    return (p :: ps, s)

/-- The loop of pf_apply_32, with the 8 words that are read ahead. -/
def scan : (stream_iters index : Nat) → (reads : List Word) → List (Patch ρ) → State ρ →
    Except String (List (Patch ρ) × State ρ)
  | 0, _, _, ps, s => .ok (ps, s)
  | stream_iters + 1, index, reads, ps, s => do
    let (ps, s) ← matchAll reads index ps s
    scan stream_iters (index + 1) (reads.drop 1 ++ [s.mem (index + 8)]) ps s

def pfApply32 (size : Nat) (ps : List (Patch ρ)) (s : State ρ) :
    Except String (List (Patch ρ) × State ρ) :=
  scan (size / 4) 0 ((List.range 8).map s.mem) ps s

def pfApply (size : Nat) (set : PatchSet ρ) (s : State ρ) :
    Except String (PatchSet ρ × State ρ) := do
  let (ps, s) ← pfApply32 size set.patches s
  match ps.find? fun p => set.is_required && (p.is_required && !p.has_fired) with
  | some p => .error ("Missing patch: " ++ p.name)
  | none => return ({ set with patches := ps }, s)

def cfwPatchOnce (name : String) (has_fired : Bool) : Except String Unit :=
  if has_fired then .error (name ++ ": Found twice") else .ok ()

def onceCallback (name : String) (ws : List (Nat × Word)) (note : ρ → ρ) (has_fired : Bool)
    (index : Nat) (s : State ρ) : Except String (Bool × State ρ) := do
  cfwPatchOnce name has_fired
  return (true, { mem := write s.mem index ws, rest := note s.rest })

def oncePatch (name : String) (pairs : List (Entry 32)) (required : Bool) (ws : List (Nat × Word))
    (note : ρ → ρ) (has_fired : Bool) : Patch ρ where
  name := name
  pairs := pairs
  is_required := required
  has_fired := has_fired
  should_match := true
  pf_callback := onceCallback name ws note

/-- Writes inside a pattern whose places cannot overlap, before or after them. -/
structure Sound (P : List (Entry 32)) (ws : List (Nat × Word)) : Prop where
  inside : ∀ p ∈ ws, p.1 < P.length
  solid : Solid P
  behind : ∀ d < P.length, 0 < d → Apart (after P ws) P d

variable {name : String} {P : List (Entry 32)} {required : Bool} {ws : List (Nat × Word)}
  {note : ρ → ρ} {reads : List Word} {index i : Nat} {s : State ρ} {m : Image 32}

theorem match32_iff {preread : List Word} {stream : Image 32} :
    maskmatchMatch32 P preread stream = true ↔
      Stands P (if P.length < 8 then fun k => preread.getD k 0 else stream) 0 := by
  rw [maskmatchMatch32, List.all_eq_true]
  have hentry (k : Nat) (hk : k < P.length) :
      (P[k]?.all fun p => if P.length < 8 then preread.getD k 0 &&& p.2 == p.1
        else stream k &&& p.2 == p.1) = true ↔
      Fits P[k] ((if P.length < 8 then fun k => preread.getD k 0 else stream) (0 + k)) := by
    rw [List.getElem?_eq_getElem hk, Option.all_some, Nat.zero_add]
    by_cases hshort : P.length < 8
    · rw [if_pos hshort, if_pos hshort]
      exact beq_iff_eq
    · rw [if_neg hshort, if_neg hshort]
      exact beq_iff_eq
  constructor
  · intro h k hk
    exact (hentry k hk).mp (h k (List.mem_range.mpr hk))
  · intro h k hk
    exact (hentry k (List.mem_range.mp hk)).mpr (h k (List.mem_range.mp hk))

/-- A long pattern is compared with the words that are there now. -/
theorem match32_long (hlong : 8 ≤ P.length) :
    maskmatchMatch32 P reads (fun k => s.mem (index + k)) = true ↔ Stands P s.mem index := by
  rw [match32_iff, if_neg (by omega)]
  constructor
  · intro h k hk
    have hfit := h k hk
    rwa [Nat.zero_add] at hfit
  · intro h k hk
    rw [Nat.zero_add]
    exact h k hk

theorem pfMatch_first (h : maskmatchMatch32 P reads (fun k => s.mem (index + k)) = true) :
    pfMatch (oncePatch name P required ws note false) reads index s =
      .ok (oncePatch name P required ws note true,
        { mem := write s.mem index ws, rest := note s.rest }) := by
  rw [pfMatch, if_pos (by exact h)]
  rfl

theorem pfMatch_twice (h : maskmatchMatch32 P reads (fun k => s.mem (index + k)) = true) :
    pfMatch (oncePatch name P required ws note true) reads index s =
      .error (name ++ ": Found twice") := by
  rw [pfMatch, if_pos (by exact h)]
  rfl

theorem pfMatch_other (h : ¬ maskmatchMatch32 P reads (fun k => s.mem (index + k)) = true)
    (fired : Bool) :
    pfMatch (oncePatch name P required ws note fired) reads index s =
      .ok (oncePatch name P required ws note fired, s) := by
  rw [pfMatch, if_neg (by exact h)]

theorem scan_single {n : Nat} {p : Patch ρ} (hmatch : p.should_match = true) :
    scan (n + 1) index reads [p] s = (do
      let (p, s) ← pfMatch p reads index s
      scan n (index + 1) (reads.drop 1 ++ [s.mem (index + 8)]) [p] s) := by
  rw [scan, matchAll, if_pos hmatch]
  cases pfMatch p reads index s <;> rfl

def sitesFrom (P : List (Entry 32)) (m : Image 32) (index n : Nat) : List Nat :=
  (List.range' index n).filter fun i => Stands P m i

theorem sitesFrom_stands {n : Nat} (h : Stands P m index) :
    sitesFrom P m index (n + 1) = index :: sitesFrom P m (index + 1) n := by
  rw [sitesFrom, List.range'_succ, List.filter_cons, if_pos (decide_eq_true h)]
  rfl

theorem sitesFrom_other {n : Nat} (h : ¬ Stands P m index) :
    sitesFrom P m index (n + 1) = sitesFrom P m (index + 1) n := by
  rw [sitesFrom, List.range'_succ, List.filter_cons, if_neg (by simpa using h)]
  rfl

theorem sitesFrom_zero (n : Nat) : sitesFrom P m 0 n = sites P m n := by
  rw [sitesFrom, sites, List.range_eq_range']

/-- Behind the place that was written over, the pattern stands where it stood. -/
theorem Sound.stands_iff (hs : Sound P ws) (hi : Stands P m i) (hlt : i < index) :
    Stands P (write m i ws) index ↔ Stands P m index :=
  stands_behind hi hs.inside hlt.le (fun h => hs.solid _ (by omega) (by omega))
    fun h => hs.behind _ (by omega) (by omega)

/-- A patch that has fired goes on as long as its pattern does not come again. -/
theorem scan_fired (hlong : 8 ≤ P.length) (hs : Sound P ws) (hi : Stands P m i) (hlt : i < index)
    (n : Nat) (r : ρ) :
    scan n index reads [oncePatch name P required ws note true] ⟨write m i ws, r⟩ =
      if sitesFrom P m index n = [] then
        .ok ([oncePatch name P required ws note true], ⟨write m i ws, r⟩)
      else .error (name ++ ": Found twice") := by
  induction n generalizing index reads with
  | zero => rfl
  | succ n ih =>
    rw [scan_single rfl]
    by_cases h : Stands P m index
    · have hmem := (hs.stands_iff hi hlt).mpr h
      rw [pfMatch_twice ((match32_long hlong).mpr hmem), sitesFrom_stands h,
        if_neg (List.cons_ne_nil _ _)]
      rfl
    · have hmem := mt (hs.stands_iff hi hlt).mp h
      rw [pfMatch_other (mt (match32_long hlong).mp hmem), sitesFrom_other h]
      exact ih (Nat.lt_succ_of_lt hlt)

def onceOutcome (name : String) (p : Patch ρ) (fired : Patch ρ) (ws : List (Nat × Word))
    (note : ρ → ρ) (s : State ρ) : List Nat → Except String (List (Patch ρ) × State ρ)
  | [] => .ok ([p], s)
  | [i] => .ok ([fired], { mem := write s.mem i ws, rest := note s.rest })
  | _ => .error (name ++ ": Found twice")

theorem scan_once (hlong : 8 ≤ P.length) (hs : Sound P ws) (n : Nat) :
    scan n index reads [oncePatch name P required ws note false] s =
      onceOutcome name (oncePatch name P required ws note false)
        (oncePatch name P required ws note true) ws note s (sitesFrom P s.mem index n) := by
  induction n generalizing index reads with
  | zero => rfl
  | succ n ih =>
    rw [scan_single rfl]
    by_cases h : Stands P s.mem index
    · rw [pfMatch_first ((match32_long hlong).mpr h), sitesFrom_stands h]
      change scan n (index + 1) _ [oncePatch name P required ws note true] _ = _
      rw [scan_fired hlong hs h (Nat.lt_succ_self index)]
      cases sitesFrom P s.mem (index + 1) n <;> rfl
    · rw [pfMatch_other (mt (match32_long hlong).mp h), sitesFrom_other h]
      exact ih

/-- A required patch on its own takes effect if its pattern stands at one place only. -/
theorem pfApply_once {size : Nat} {r : PatchSet ρ × State ρ} (hlong : 8 ≤ P.length)
    (hs : Sound P ws) :
    pfApply size ⟨[oncePatch name P true ws note false], true⟩ s = .ok r ↔
      ∃ i, sites P s.mem (size / 4) = [i] ∧
        r = (⟨[oncePatch name P true ws note true], true⟩,
          { mem := write s.mem i ws, rest := note s.rest }) := by
  rw [pfApply, pfApply32, scan_once hlong hs, sitesFrom_zero]
  cases sites P s.mem (size / 4) with
  | nil =>
    constructor
    · intro h
      cases h
    · intro h
      obtain ⟨i, hi, -⟩ := h
      cases hi
  | cons i is =>
    cases is with
    | nil =>
      constructor
      · intro h
        cases h
        exact ⟨i, rfl, rfl⟩
      · intro h
        obtain ⟨j, hj, rfl⟩ := h
        cases hj
        rfl
    | cons j is =>
      constructor
      · intro h
        cases h
      · intro h
        obtain ⟨k, hk, -⟩ := h
        cases hk

end AipcOs.PatchFinder
