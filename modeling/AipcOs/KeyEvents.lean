import Mathlib

/-! Press and release events: what is down after a replay, and when they alternate. -/
namespace AipcOs.KeyEvents
variable {κ : Type*} [DecidableEq κ]

def apply (d : κ → Bool) (e : Bool × κ) : κ → Bool := Function.update d e.2 e.1

def replay (d : κ → Bool) (es : List (Bool × κ)) : κ → Bool := es.foldl apply d

def Switches (d : κ → Bool) : List (Bool × κ) → Prop
  | [] => True
  | e :: es => e.1 ≠ d e.2 ∧ Switches (apply d e) es

def presses (es : List (Bool × κ)) (u : κ) : List Bool :=
  (es.filter (fun e => e.2 = u)).map Prod.fst

/-- Presses and releases in turn, with a press first. -/
def Alternates (l : List Bool) : Prop := ∀ i b, l[i]? = some b → b = decide (i % 2 = 0)

theorem apply_self (d : κ → Bool) (e : Bool × κ) : apply d e e.2 = e.1 := by
  rw [apply, Function.update_self]

theorem apply_of_ne (d : κ → Bool) (e : Bool × κ) {u : κ} (h : u ≠ e.2) : apply d e u = d u := by
  rw [apply, Function.update_of_ne h]

theorem replay_append (d : κ → Bool) (es fs : List (Bool × κ)) :
    replay d (es ++ fs) = replay (replay d es) fs := List.foldl_append

theorem switches_append (d : κ → Bool) (es fs : List (Bool × κ)) :
    Switches d (es ++ fs) ↔ Switches d es ∧ Switches (replay d es) fs := by
  induction es generalizing d with
  | nil => simp [Switches, replay]
  | cons e es ih =>
    have hreplay : replay d (e :: es) = replay (apply d e) es := rfl
    rw [List.cons_append, Switches, Switches, ih, hreplay, and_assoc]

/-- Events on different keys, each against the state before all of them. -/
theorem switches_of_changes (d : κ → Bool) (es : List (Bool × κ))
    (hnodup : (es.map Prod.snd).Nodup) (hchange : ∀ e ∈ es, e.1 = !d e.2) :
    Switches d es ∧ ∀ u, replay d es u = if u ∈ es.map Prod.snd then !d u else d u := by
  induction es generalizing d with
  | nil => exact ⟨trivial, fun u => by simp [replay]⟩
  | cons e es ih =>
    rw [List.map_cons, List.nodup_cons] at hnodup
    have he : e.1 = !d e.2 := hchange e List.mem_cons_self
    have hrest : ∀ e' ∈ es, e'.1 = !apply d e e'.2 := by
      intro e' he'
      have hne : e'.2 ≠ e.2 := fun h => hnodup.1 (h ▸ List.mem_map_of_mem he')
      rw [apply_of_ne d e hne]
      exact hchange e' (List.mem_cons_of_mem e he')
    obtain ⟨hswitch, hreplay⟩ := ih (apply d e) hnodup.2 hrest
    refine ⟨⟨by simp [he], hswitch⟩, ?_⟩
    intro u
    have hstep : replay d (e :: es) u = replay (apply d e) es u := rfl
    rw [hstep, hreplay, List.map_cons]
    by_cases hu : u = e.2
    · subst hu
      rw [if_neg hnodup.1, if_pos List.mem_cons_self, apply_self, he]
    · rw [apply_of_ne d e hu]
      simp [hu]

theorem presses_of_switches (d : κ → Bool) (es : List (Bool × κ)) (u : κ)
    (h : Switches d es) (i : Nat) (b : Bool) (hb : (presses es u)[i]? = some b) :
    b = (d u ^^ decide (i % 2 = 0)) := by
  induction es generalizing d i with
  | nil => simp [presses] at hb
  | cons e es ih =>
    obtain ⟨he, hrest⟩ := h
    by_cases hu : e.2 = u
    · have hcons : presses (e :: es) u = e.1 :: presses es u := by simp [presses, hu]
      rw [hcons] at hb
      subst hu
      have hflip : e.1 = !d e.2 := by
        cases h₁ : e.1 <;> cases h₂ : d e.2 <;> simp_all
      cases i with
      | zero =>
        rw [List.getElem?_cons_zero, Option.some.injEq] at hb
        rw [← hb, hflip]
        simp
      | succ i =>
        rw [List.getElem?_cons_succ] at hb
        rw [ih (apply d e) hrest i hb, apply_self, hflip]
        rcases Nat.mod_two_eq_zero_or_one i with h0 | h1
        · simp [h0, Nat.add_mod]
        · simp [h1, Nat.add_mod]
    · have hcons : presses (e :: es) u = presses es u := by simp [presses, hu]
      rw [hcons] at hb
      rw [ih (apply d e) hrest i hb, apply_of_ne d e (Ne.symm hu)]

/-- From all keys up, switching events alternate on every key. -/
theorem alternates_of_switches (es : List (Bool × κ)) (h : Switches (fun _ => false) es) (u : κ) :
    Alternates (presses es u) := by
  intro i b hb
  rw [presses_of_switches (fun _ => false) es u h i b hb, Bool.false_xor]

end AipcOs.KeyEvents
