import AipcOs.HexText

/-! The line grammar of ini files, as a function of the text. -/
namespace AipcOs.Ini
open ByteMemory HexText

def chr (c : Char) : Byte := BitVec.ofNat 8 c.toNat

def isBlank (c : Byte) : Bool := c = chr ' ' ∨ c = chr '\t'

def isEndBlank (c : Byte) : Bool := c = chr ' ' ∨ c = chr '\t' ∨ c = chr '\r'

def lead (s : List Byte) : List Byte := s.takeWhile isBlank

def trimEnd (s : List Byte) : List Byte := s.rdropWhile isEndBlank

def trimmed (s : List Byte) : List Byte := trimEnd (s.dropWhile isBlank)

/-- The lines of a text. A newline at its end starts no further line. -/
def linesOf : List Byte → List (List Byte)
  | [] => []
  | c :: cs =>
    if c = chr '\n' then [] :: linesOf cs
    else
      match linesOf cs with
      | [] => [[c]]
      | l :: ls => (c :: l) :: ls

def upTo (c : Byte) (s : List Byte) : List Byte := s.takeWhile fun x => decide (x ≠ c)

def past (c : Byte) (s : List Byte) : List Byte := (s.dropWhile fun x => decide (x ≠ c)).tail

inductive Line where
  | skip
  | header (name : List Byte)
  | key (name value : List Byte)
  | invalid
  deriving DecidableEq

def classify (core : List Byte) : Line :=
  match core with
  | [] => .skip
  | c :: cs =>
    if c = chr ';' ∨ c = chr '#' then .skip
    else if c = chr '[' then
      if chr ']' ∈ cs then .header (trimmed (upTo (chr ']') cs)) else .invalid
    else if chr '=' ∈ c :: cs then
      .key (trimmed (upTo (chr '=') (c :: cs))) (trimmed (past (chr '=') (c :: cs)))
    else .invalid

def nameOffset (l : List Byte) : Nat :=
  (lead l).length + 1 + (lead (upTo (chr ']') (trimmed l).tail)).length

/-- A key as the handler gets it. `ptr` is where the section's name is in the text, or none before
the first header. -/
structure Entry where
  ptr : Option Nat
  sect : List Byte
  name : List Byte
  value : List Byte
  line : Nat
  deriving DecidableEq

structure Section where
  ptr : Option Nat
  name : List Byte
  deriving DecidableEq

def noSection : Section := ⟨none, []⟩

/-- The parse of the lines from the one at `pos` on, with `line` lines before it. -/
def grammar {σ : Type*} (h : σ → Entry → Int × σ) :
    List (List Byte) → (pos line : Nat) → Section → σ → Int × σ
  | [], _, _, _, ctx => (0, ctx)
  | l :: ls, pos, line, sec, ctx =>
    match classify (trimmed l) with
    | .skip => grammar h ls (pos + l.length + 1) (line + 1) sec ctx
    | .header name =>
      grammar h ls (pos + l.length + 1) (line + 1) ⟨some (pos + nameOffset l), name⟩ ctx
    | .key name value =>
      let (rc, ctx) := h ctx ⟨sec.ptr, sec.name, name, value, line + 1⟩
      if rc ≠ 0 then (rc, ctx) else grammar h ls (pos + l.length + 1) (line + 1) sec ctx
    | .invalid => (line + 1, ctx)

def entriesFrom : List (List Byte) → (pos line : Nat) → Section → List Entry
  | [], _, _, _ => []
  | l :: ls, pos, line, sec =>
    match classify (trimmed l) with
    | .skip => entriesFrom ls (pos + l.length + 1) (line + 1) sec
    | .header name =>
      entriesFrom ls (pos + l.length + 1) (line + 1) ⟨some (pos + nameOffset l), name⟩
    | .key name value =>
      ⟨sec.ptr, sec.name, name, value, line + 1⟩ ::
        entriesFrom ls (pos + l.length + 1) (line + 1) sec
    | .invalid => []

def entries (text : List Byte) : List Entry := entriesFrom (linesOf text) 0 0 noSection

/-- A handler that never stops the parse gets every key. -/
theorem grammar_foldl {σ : Type*} {h : σ → Entry → Int × σ} (hgo : ∀ ctx e, (h ctx e).1 = 0)
    (ls : List (List Byte)) (pos line : Nat) (sec : Section) (ctx : σ) :
    (grammar h ls pos line sec ctx).2 =
      (entriesFrom ls pos line sec).foldl (fun ctx e => (h ctx e).2) ctx := by
  induction ls generalizing pos line sec ctx with
  | nil => rfl
  | cons l ls ih =>
    rw [grammar, entriesFrom]
    cases classify (trimmed l) with
    | skip => exact ih _ _ _ _
    | header name => exact ih _ _ _ _
    | key name value =>
      simp only [hgo, ne_eq, not_true_eq_false, if_false, List.foldl_cons]
      exact ih _ _ _ _
    | invalid => rfl

/-- The first line that is not valid, and the section it stands in. -/
structure Stop where
  line : Nat
  sec : Section
  deriving DecidableEq

def stopFrom : List (List Byte) → (pos line : Nat) → Section → Option Stop
  | [], _, _, _ => none
  | l :: ls, pos, line, sec =>
    match classify (trimmed l) with
    | .skip => stopFrom ls (pos + l.length + 1) (line + 1) sec
    | .header name => stopFrom ls (pos + l.length + 1) (line + 1) ⟨some (pos + nameOffset l), name⟩
    | .key _ _ => stopFrom ls (pos + l.length + 1) (line + 1) sec
    | .invalid => some ⟨line + 1, sec⟩

def stop (text : List Byte) : Option Stop := stopFrom (linesOf text) 0 0 noSection

def runKeys {σ : Type*} (h : σ → Entry → Int × σ) : List Entry → σ → Int × σ
  | [], ctx => (0, ctx)
  | e :: es, ctx => if (h ctx e).1 ≠ 0 then h ctx e else runKeys h es (h ctx e).2

def outcomeOf {σ : Type*} (h : σ → Entry → Int × σ) (es : List Entry) (stop : Option Stop) (ctx : σ) :
    Int × σ :=
  if (runKeys h es ctx).1 ≠ 0 then runKeys h es ctx
  else ((stop.map fun s => (s.line : Int)).getD 0, (runKeys h es ctx).2)

def outcome {σ : Type*} (h : σ → Entry → Int × σ) (text : List Byte) (ctx : σ) : Int × σ :=
  outcomeOf h (entries text) (stop text) ctx

theorem grammar_outcome {σ : Type*} (h : σ → Entry → Int × σ) (ls : List (List Byte))
    (pos line : Nat) (sec : Section) (ctx : σ) :
    grammar h ls pos line sec ctx =
      outcomeOf h (entriesFrom ls pos line sec) (stopFrom ls pos line sec) ctx := by
  induction ls generalizing pos line sec ctx with
  | nil => rfl
  | cons l ls ih =>
    rw [grammar, entriesFrom, stopFrom]
    cases classify (trimmed l) with
    | skip => exact ih _ _ _ _
    | header name => exact ih _ _ _ _
    | key name value =>
      simp only [outcomeOf, runKeys]
      by_cases hrc : (h ctx ⟨sec.ptr, sec.name, name, value, line + 1⟩).1 ≠ 0
      · simp only [if_pos hrc]
      · simp only [if_neg hrc]
        exact ih _ _ _ _
    | invalid => rfl

theorem linesOf_cons {l : List Byte} (hl : chr '\n' ∉ l) (rest : List Byte) :
    linesOf (l ++ chr '\n' :: rest) = l :: linesOf rest := by
  induction l with
  | nil => simp [linesOf]
  | cons c l ih =>
    rw [List.mem_cons, not_or] at hl
    rw [List.cons_append, linesOf, if_neg (Ne.symm hl.1), ih hl.2]

theorem linesOf_last {l : List Byte} (hl : chr '\n' ∉ l) (hne : l ≠ []) : linesOf l = [l] := by
  induction l with
  | nil => exact absurd rfl hne
  | cons c l ih =>
    rw [List.mem_cons, not_or] at hl
    rw [linesOf, if_neg (Ne.symm hl.1)]
    cases l with
    | nil => rfl
    | cons d l => rw [ih hl.2 (by simp)]

theorem trimmed_parts (s : List Byte) :
    ∃ trail, s = lead s ++ trimmed s ++ trail ∧ ∀ c ∈ trail, isEndBlank c := by
  refine ⟨(s.dropWhile isBlank).rtakeWhile isEndBlank, ?_, fun c hc => List.mem_rtakeWhile_imp hc⟩
  rw [List.append_assoc, trimmed, trimEnd, List.rdropWhile_append_rtakeWhile, lead,
    List.takeWhile_append_dropWhile]

theorem trimmed_last (s : List Byte) (h : trimmed s ≠ []) :
    ¬ isEndBlank ((trimmed s).getLast h) := by
  exact List.rdropWhile_last_not _ _ h

theorem split_at {c : Byte} {s : List Byte} (h : c ∈ s) : s = upTo c s ++ c :: past c s := by
  induction s with
  | nil => cases h
  | cons x s ih =>
    by_cases hx : x = c
    · subst hx
      simp [upTo, past]
    · obtain rfl | hs := List.mem_cons.mp h
      · exact absurd rfl hx
      · simp only [upTo, past, List.takeWhile_cons, List.dropWhile_cons, ne_eq, hx,
          not_false_eq_true, decide_true, if_true, List.cons_append, List.cons.injEq, true_and]
        exact ih hs

theorem not_mem_upTo (c : Byte) (s : List Byte) : c ∉ upTo c s := by
  intro h
  have hc := List.mem_takeWhile_imp h
  simp at hc

theorem mem_of_mem_trimmed {c : Byte} {s : List Byte} (h : c ∈ trimmed s) : c ∈ s := by
  obtain ⟨trail, hs, -⟩ := trimmed_parts s
  rw [hs]
  simp [h]

def Inline (s : List Byte) : Prop :=
  0 ∉ s ∧ chr '\n' ∉ s ∧ ∀ c ∈ s.head?, isBlank c = false

def SectText (s : List Byte) : Prop := Inline s ∧ chr ']' ∉ s

def NameText (s : List Byte) : Prop :=
  Inline s ∧ chr '=' ∉ s ∧ ∀ c ∈ s.head?, c ≠ chr ';' ∧ c ≠ chr '#' ∧ c ≠ chr '['

instance (s : List Byte) : Decidable (Inline s) := by unfold Inline; infer_instance

instance (s : List Byte) : Decidable (SectText s) := by unfold SectText; infer_instance

instance (s : List Byte) : Decidable (NameText s) := by unfold NameText; infer_instance

theorem head?_of_isPrefix {α : Type*} {s t : List α} {c : α} (h : s <+: t) (hc : c ∈ s.head?) :
    c ∈ t.head? := by
  obtain ⟨u, rfl⟩ := h
  rw [Option.mem_def] at hc ⊢
  rw [List.head?_append, hc]
  rfl

theorem Inline.of_isPrefix {s t : List Byte} (ht : Inline t) (h : s <+: t) : Inline s :=
  ⟨fun hc => ht.1 (h.subset hc), fun hc => ht.2.1 (h.subset hc),
    fun c hc => ht.2.2 c (head?_of_isPrefix h hc)⟩

theorem SectText.of_isPrefix {s t : List Byte} (ht : SectText t) (h : s <+: t) : SectText s :=
  ⟨ht.1.of_isPrefix h, fun hc => ht.2 (h.subset hc)⟩

theorem NameText.of_isPrefix {s t : List Byte} (ht : NameText t) (h : s <+: t) : NameText s :=
  ⟨ht.1.of_isPrefix h, fun hc => ht.2.1 (h.subset hc), fun c hc => ht.2.2 c (head?_of_isPrefix h hc)⟩

theorem trimEnd_isPrefix (s : List Byte) : trimEnd s <+: s := List.rdropWhile_prefix _ _

theorem trimmed_of_inline {s : List Byte} (h : ∀ c ∈ s.head?, isBlank c = false) :
    trimmed s = trimEnd s := by
  cases s with
  | nil => rfl
  | cons c cs => rw [trimmed, List.dropWhile_cons_of_neg (by simp [h c rfl])]

theorem inline_trimmed {s : List Byte} (hz : 0 ∉ s) (hnl : chr '\n' ∉ s) : Inline (trimmed s) := by
  refine ⟨fun h => hz (mem_of_mem_trimmed h), fun h => hnl (mem_of_mem_trimmed h), ?_⟩
  intro c hc
  have hhead := List.head?_dropWhile_not isBlank s
  rw [head?_of_isPrefix (trimEnd_isPrefix _) hc] at hhead
  exact hhead

theorem mem_of_mem_upTo {c d : Byte} {s : List Byte} (h : c ∈ upTo d s) : c ∈ s :=
  List.takeWhile_subset _ h

theorem mem_of_mem_past {c d : Byte} {s : List Byte} (h : c ∈ past d s) : c ∈ s :=
  (List.dropWhile_suffix _).subset (List.mem_of_mem_tail h)

def Line.Sound : Line → Prop
  | .header name => SectText name
  | .key name value => NameText name ∧ Inline value
  | _ => True

theorem classify_sound {core : List Byte} (h : Inline core) : (classify core).Sound := by
  cases core with
  | nil => trivial
  | cons c cs =>
    rw [classify]
    by_cases hcomment : c = chr ';' ∨ c = chr '#'
    · rw [if_pos hcomment]
      trivial
    rw [if_neg hcomment]
    by_cases hopen : c = chr '['
    · rw [if_pos hopen]
      split
      · refine ⟨inline_trimmed ?_ ?_, fun hc => not_mem_upTo _ _ (mem_of_mem_trimmed hc)⟩
        · exact fun hc => h.1 (List.mem_cons_of_mem _ (mem_of_mem_upTo hc))
        · exact fun hc => h.2.1 (List.mem_cons_of_mem _ (mem_of_mem_upTo hc))
      · trivial
    rw [if_neg hopen]
    split
    · have hpre : upTo (chr '=') (c :: cs) <+: c :: cs := List.takeWhile_prefix _
      have hname := (trimEnd_isPrefix (upTo (chr '=') (c :: cs))).trans hpre
      rw [trimmed_of_inline (h.of_isPrefix hpre).2.2]
      refine ⟨⟨h.of_isPrefix hname, ?_, ?_⟩, inline_trimmed ?_ ?_⟩
      · exact fun hc => not_mem_upTo _ _ ((trimEnd_isPrefix _).subset hc)
      · intro x hx
        obtain rfl : c = x := Option.some.inj (head?_of_isPrefix hname hx)
        exact ⟨fun h => hcomment (.inl h), fun h => hcomment (.inr h), hopen⟩
      · exact fun hc => h.1 (mem_of_mem_past hc)
      · exact fun hc => h.2.1 (mem_of_mem_past hc)
    · trivial

theorem entriesFrom_text {ls : List (List Byte)} (hls : ∀ l ∈ ls, 0 ∉ l ∧ chr '\n' ∉ l)
    {pos line : Nat} {sec : Section} (hsec : SectText sec.name) :
    ∀ e ∈ entriesFrom ls pos line sec, SectText e.sect ∧ NameText e.name ∧ Inline e.value := by
  induction ls generalizing pos line sec with
  | nil => exact fun _ h => by cases h
  | cons l ls ih =>
    have hl := hls l List.mem_cons_self
    have ih := fun {pos line sec} => @ih (fun l hl => hls l (List.mem_cons_of_mem _ hl)) pos line sec
    have hline := classify_sound (inline_trimmed hl.1 hl.2)
    intro e he
    rw [entriesFrom] at he
    cases hc : classify (trimmed l) <;> rw [hc] at he hline
    case skip => exact ih hsec e he
    case header name =>
      have hsec' : SectText (Section.mk (some (pos + nameOffset l)) name).name := hline
      exact ih hsec' e he
    case key name value =>
      obtain rfl | he := List.mem_cons.mp he
      · exact ⟨hsec, hline⟩
      · exact ih hsec e he
    case invalid => cases he

theorem mem_linesOf {text l : List Byte} (h : l ∈ linesOf text) :
    chr '\n' ∉ l ∧ ∀ c ∈ l, c ∈ text := by
  induction text generalizing l with
  | nil => cases h
  | cons c cs ih =>
    rw [linesOf] at h
    split at h
    · obtain rfl | h := List.mem_cons.mp h
      · exact ⟨List.not_mem_nil, fun _ h => by cases h⟩
      · exact ⟨(ih h).1, fun x hx => List.mem_cons_of_mem _ ((ih h).2 x hx)⟩
    · rename_i hc
      have hhead : ∀ l', chr '\n' ∉ l' → (∀ x ∈ l', x ∈ cs) →
          chr '\n' ∉ c :: l' ∧ ∀ x ∈ c :: l', x ∈ c :: cs := by
        intro l' hnl hsub
        refine ⟨List.not_mem_cons_of_ne_of_not_mem (Ne.symm hc) hnl, ?_⟩
        exact List.cons_subset_cons c hsub
      split at h
      · obtain rfl := List.mem_singleton.mp h
        exact hhead [] List.not_mem_nil (List.nil_subset cs)
      · rename_i l' ls hlines
        obtain rfl | h := List.mem_cons.mp h
        · have hl := ih (hlines ▸ List.mem_cons_self)
          exact hhead l' hl.1 hl.2
        · have hl := ih (hlines ▸ List.mem_cons_of_mem _ h)
          exact ⟨hl.1, fun x hx => List.mem_cons_of_mem _ (hl.2 x hx)⟩

theorem upTo_append {c : Byte} {a : List Byte} (h : c ∉ a) (b : List Byte) :
    upTo c (a ++ c :: b) = a := by
  have hpass : ∀ x ∈ a, decide (x ≠ c) = true := by
    intro x hx
    apply decide_eq_true
    intro heq
    obtain rfl := heq
    exact h hx
  rw [upTo, List.takeWhile_append_of_pos hpass, List.takeWhile_cons_of_neg (by simp),
    List.append_nil]

theorem past_append {c : Byte} {a : List Byte} (h : c ∉ a) (b : List Byte) :
    past c (a ++ c :: b) = b := by
  have hpass : ∀ x ∈ a, decide (x ≠ c) = true := by
    intro x hx
    apply decide_eq_true
    intro heq
    obtain rfl := heq
    exact h hx
  rw [past, List.dropWhile_append_of_pos hpass, List.dropWhile_cons_of_neg (by simp),
    List.tail_cons]

theorem trimEnd_append (a : List Byte) {c : Byte} (hc : ¬ isEndBlank c) (b : List Byte) :
    trimEnd (a ++ c :: b) = a ++ c :: trimEnd b := by
  unfold trimEnd
  induction b using List.reverseRecOn with
  | nil => exact List.rdropWhile_concat_neg _ _ _ hc
  | append_singleton b x ih =>
    rw [← List.cons_append, ← List.append_assoc]
    by_cases hx : isEndBlank x
    · rw [List.rdropWhile_concat_pos _ _ _ hx, List.rdropWhile_concat_pos _ _ _ hx, ih]
    · rw [List.rdropWhile_concat_neg _ _ _ hx, List.rdropWhile_concat_neg _ _ _ hx,
        List.append_assoc, List.cons_append]

theorem trimEnd_idempotent (s : List Byte) : trimEnd (trimEnd s) = trimEnd s :=
  List.rdropWhile_idempotent _ _

theorem entries_text {text : List Byte} (hz : 0 ∉ text) :
    ∀ e ∈ entries text, SectText e.sect ∧ NameText e.name ∧ Inline e.value := by
  apply entriesFrom_text
  · intro l hl
    exact ⟨fun hc => hz ((mem_linesOf hl).2 0 hc), (mem_linesOf hl).1⟩
  · exact ⟨⟨List.not_mem_nil, List.not_mem_nil, fun _ h => by cases h⟩, List.not_mem_nil⟩

theorem runKeys_append {σ : Type*} (h : σ → Entry → Int × σ) (es fs : List Entry) (ctx : σ) :
    runKeys h (es ++ fs) ctx =
      if (runKeys h es ctx).1 ≠ 0 then runKeys h es ctx else runKeys h fs (runKeys h es ctx).2 := by
  induction es generalizing ctx with
  | nil => rfl
  | cons e es ih =>
    rw [List.cons_append, runKeys, runKeys]
    by_cases hrc : (h ctx e).1 ≠ 0
    · rw [if_pos hrc, if_pos hrc, if_pos hrc]
    · rw [if_neg hrc, if_neg hrc]
      exact ih _

def rank : Option Nat → Nat
  | none => 0
  | some p => p + 1

theorem rank_inj {p q : Option Nat} (h : rank p = rank q) : p = q := by
  cases p <;> cases q <;> simp_all [rank]

theorem trimmed_fits (w : List Byte) : (lead w).length + (trimmed w).length ≤ w.length := by
  obtain ⟨trail, hw, -⟩ := trimmed_parts w
  have hlen := congrArg List.length hw
  rw [List.length_append, List.length_append] at hlen
  omega

theorem nameOffset_le {l name : List Byte} (h : classify (trimmed l) = .header name) :
    nameOffset l ≤ l.length := by
  have hfit := trimmed_fits l
  cases hcore : trimmed l with
  | nil => rw [hcore] at h; cases h
  | cons c cs =>
    have hup : (upTo (chr ']') cs).length ≤ cs.length := (List.takeWhile_prefix _).length_le
    have hlead := trimmed_fits (upTo (chr ']') cs)
    rw [hcore, List.length_cons] at hfit
    rw [nameOffset, hcore, List.tail_cons]
    omega

/-- The sections of a text never come back: the keys are in the order of their sections, and the
line that is not valid is behind them all. -/
theorem entriesFrom_ranks (ls : List (List Byte)) (pos line : Nat) (sec : Section)
    (hsec : rank sec.ptr ≤ pos) :
    (∀ e ∈ entriesFrom ls pos line sec, rank sec.ptr ≤ rank e.ptr) ∧
      (entriesFrom ls pos line sec).Pairwise (fun a b => rank a.ptr ≤ rank b.ptr) ∧
      ∀ s, stopFrom ls pos line sec = some s → rank sec.ptr ≤ rank s.sec.ptr ∧
        ∀ e ∈ entriesFrom ls pos line sec, rank e.ptr ≤ rank s.sec.ptr := by
  induction ls generalizing pos line sec with
  | nil =>
    refine ⟨fun e he => ?_, List.Pairwise.nil, fun s hs => ?_⟩
    · cases he
    · cases hs
  | cons l ls ih =>
    rw [entriesFrom, stopFrom]
    cases hl : classify (trimmed l) with
    | skip => exact ih _ _ sec (by omega)
    | header name =>
      have hoff := nameOffset_le hl
      have hnew : rank (some (pos + nameOffset l)) = pos + nameOffset l + 1 := rfl
      obtain ⟨hge, hord, hstop⟩ :=
        ih (pos + l.length + 1) (line + 1) ⟨some (pos + nameOffset l), name⟩
          (by simp only [hnew]; omega)
      simp only [hnew] at hge hstop
      refine ⟨fun e he => ?_, hord, fun s hs => ⟨?_, (hstop s hs).2⟩⟩
      · have := hge e he
        omega
      · have := (hstop s hs).1
        omega
    | key name value =>
      obtain ⟨hge, hord, hstop⟩ := ih (pos + l.length + 1) (line + 1) sec (by omega)
      refine ⟨?_, List.pairwise_cons.mpr ⟨hge, hord⟩, fun s hs => ⟨(hstop s hs).1, ?_⟩⟩
      · intro e he
        obtain rfl | he := List.mem_cons.mp he
        · exact Nat.le_refl _
        · exact hge e he
      · intro e he
        obtain rfl | he := List.mem_cons.mp he
        · exact (hstop s hs).1
        · exact (hstop s hs).2 e he
    | invalid =>
      refine ⟨fun e he => ?_, List.Pairwise.nil, fun s hs => ?_⟩
      · cases he
      · cases hs
        exact ⟨Nat.le_refl _, fun e he => by cases he⟩

theorem stopFrom_line {ls : List (List Byte)} {pos line : Nat} {sec : Section} {s : Stop}
    (h : stopFrom ls pos line sec = some s) : line < s.line := by
  induction ls generalizing pos line sec with
  | nil => cases h
  | cons l ls ih =>
    rw [stopFrom] at h
    cases hl : classify (trimmed l) <;> rw [hl] at h
    case invalid =>
      cases h
      exact Nat.lt_succ_self line
    all_goals exact (Nat.lt_succ_self line).trans (ih h)

end AipcOs.Ini
