import Mathlib.Data.List.Basic

/-! A queue of bounded capacity that loses its oldest entry when one is put into it full. -/
namespace AipcOs.DropOldest
variable {α : Type*}

inductive Act (α : Type*) where
  | push (a : α)
  | pop

/-- What left the queue, in order, `true` where it was taken out and `false` where it was lost,
and what still waits, oldest first. -/
structure Queue (α : Type*) where
  departed : List (Bool × α)
  waiting : List α

def Queue.leave (q : Queue α) (taken : Bool) : Queue α :=
  match q.waiting with
  | [] => q
  | a :: rest => ⟨q.departed ++ [(taken, a)], rest⟩

def Queue.put (cap : Nat) (q : Queue α) (a : α) : Queue α :=
  let q := if q.waiting.length = cap then q.leave false else q
  { q with waiting := q.waiting ++ [a] }

def Queue.act (cap : Nat) (q : Queue α) : Act α → Queue α
  | .push a => q.put cap a
  | .pop => q.leave true

def Queue.run (cap : Nat) (q : Queue α) (acts : List (Act α)) : Queue α := acts.foldl (Queue.act cap) q

def empty : Queue α := ⟨[], []⟩

def Queue.taken (q : Queue α) : List α := (q.departed.filter Prod.fst).map Prod.snd

def Queue.lost (q : Queue α) : List α := (q.departed.filter fun d => !d.1).map Prod.snd

def Act.pushed : Act α → Option α
  | .push a => some a
  | .pop => none

def pushed (acts : List (Act α)) : List α := acts.filterMap Act.pushed

def overflows (cap : Nat) : Queue α → List (Act α) → Nat
  | _, [] => 0
  | q, .push a :: acts =>
    (if q.waiting.length = cap then 1 else 0) + overflows cap (q.put cap a) acts
  | q, .pop :: acts => overflows cap (q.leave true) acts

variable {cap : Nat} {q : Queue α}

theorem pushed_append (acts more : List (Act α)) :
    pushed (acts ++ more) = pushed acts ++ pushed more := List.filterMap_append

theorem run_append (acts more : List (Act α)) :
    q.run cap (acts ++ more) = (q.run cap acts).run cap more := List.foldl_append

theorem leave_cons {a : α} {rest : List α} {taken : Bool} (h : q.waiting = a :: rest) :
    q.leave taken = ⟨q.departed ++ [(taken, a)], rest⟩ := by
  simp [Queue.leave, h]

theorem put_room {a : α} (h : q.waiting.length ≠ cap) : (q.put cap a).waiting = q.waiting ++ [a] := by
  simp [Queue.put, h]

theorem put_full {a : α} (h : q.waiting.length = cap) :
    (q.put cap a).waiting = q.waiting.tail ++ [a] := by
  obtain ⟨departed, waiting⟩ := q
  cases waiting with
  | nil => simp [Queue.put, Queue.leave]
  | cons b rest =>
    have hlen : rest.length + 1 = cap := h
    simp [Queue.put, Queue.leave, hlen]

/-- What is lost was not taken out. -/
theorem put_taken (q : Queue α) (a : α) : (q.put cap a).taken = q.taken := by
  have hput : (q.put cap a).taken = (if q.waiting.length = cap then q.leave false else q).taken := rfl
  rw [hput]
  split
  · obtain ⟨departed, waiting⟩ := q
    cases waiting with
    | nil => rfl
    | cons b rest => simp [Queue.leave, Queue.taken]
  · rfl

def Queue.history (q : Queue α) : List α := q.departed.map Prod.snd ++ q.waiting

theorem leave_history (q : Queue α) (taken : Bool) : (q.leave taken).history = q.history := by
  obtain ⟨departed, waiting⟩ := q
  cases waiting with
  | nil => rfl
  | cons a rest => simp [Queue.leave, Queue.history]

theorem put_history (q : Queue α) (a : α) : (q.put cap a).history = q.history ++ [a] := by
  have hput : (q.put cap a).history =
      (if q.waiting.length = cap then q.leave false else q).history ++ [a] := by
    simp [Queue.put, Queue.history]
  rw [hput]
  split
  · rw [leave_history]
  · rfl

/-- Nothing is lost from the record, reordered or made up. -/
theorem run_history (q : Queue α) (acts : List (Act α)) :
    (q.run cap acts).history = q.history ++ pushed acts := by
  induction acts generalizing q with
  | nil => simp [Queue.run, pushed]
  | cons x acts ih =>
    have hrun : q.run cap (x :: acts) = (q.act cap x).run cap acts := rfl
    rw [hrun, ih]
    cases x with
    | push a =>
      have hpushed : pushed (.push a :: acts) = a :: pushed acts := List.filterMap_cons_some rfl
      rw [Queue.act, put_history, hpushed, List.append_assoc]
      rfl
    | pop =>
      have hpushed : pushed (.pop :: acts) = pushed acts := List.filterMap_cons_none rfl
      rw [Queue.act, leave_history, hpushed]

theorem leave_lost (q : Queue α) (taken : Bool) (hne : q.waiting ≠ []) :
    (q.leave taken).lost.length = q.lost.length + if taken then 0 else 1 := by
  obtain ⟨departed, waiting⟩ := q
  cases waiting with
  | nil => exact absurd rfl hne
  | cons a rest => cases taken <;> simp [Queue.leave, Queue.lost]

theorem leave_true_lost (q : Queue α) : (q.leave true).lost = q.lost := by
  obtain ⟨departed, waiting⟩ := q
  cases waiting with
  | nil => rfl
  | cons a rest => simp [Queue.leave, Queue.lost]

theorem put_lost (hcap : 0 < cap) (q : Queue α) (a : α) :
    (q.put cap a).lost.length = q.lost.length + if q.waiting.length = cap then 1 else 0 := by
  have hput : (q.put cap a).lost = (if q.waiting.length = cap then q.leave false else q).lost := rfl
  rw [hput]
  split
  · rename_i hfull
    have hne : q.waiting ≠ [] := List.ne_nil_of_length_pos (hfull ▸ hcap)
    exact leave_lost q false hne
  · rfl

/-- One entry is lost for each push that finds the queue full. -/
theorem run_lost (hcap : 0 < cap) (q : Queue α) (acts : List (Act α)) :
    (q.run cap acts).lost.length = q.lost.length + overflows cap q acts := by
  induction acts generalizing q with
  | nil => rfl
  | cons x acts ih =>
    have hrun : q.run cap (x :: acts) = (q.act cap x).run cap acts := rfl
    rw [hrun, ih]
    cases x with
    | push a => rw [Queue.act, put_lost hcap, overflows, Nat.add_assoc]
    | pop => rw [Queue.act, leave_true_lost, overflows]

theorem taken_sublist (q : Queue α) : q.taken.Sublist q.history :=
  (List.filter_sublist.map Prod.snd).trans (List.sublist_append_left _ _)

end AipcOs.DropOldest
