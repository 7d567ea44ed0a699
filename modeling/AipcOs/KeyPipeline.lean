import AipcOs.Ch374
import AipcOs.DropOldest

/-! The keyboard while its device stays: reports on one side, ch374_kbd_pop on the other, and the
queue that overwrites its oldest event between them. -/
namespace AipcOs.KeyPipeline
open ByteMemory Ch374 DropOldest

structure Toggles (prev now : Byte → Bool) (es : List (Bool × Byte)) : Prop where
  once : (es.map Prod.snd).Nodup
  changed : ∀ u, u ∈ es.map Prod.snd ↔ prev u ≠ now u
  direction : ∀ e ∈ es, e.1 = now e.2
  order : ∃ modifiers releases presses, es = modifiers ++ (releases ++ presses) ∧
    (∀ e ∈ modifiers, 0xE0 ≤ e.2.toNat) ∧
    (∀ e ∈ releases, e.1 = false ∧ e.2.toNat < 0xE0) ∧
    (∀ e ∈ presses, e.1 = true ∧ e.2.toNat < 0xE0)

def held (r : Report) : Byte → Bool := heldBy r.modifiers r.keys

def Pushes (prev : Byte → Bool) : List Report → List (Bool × Byte) → Prop
  | [], es => es = []
  | r :: rest, es => ∃ now later, es = now ++ later ∧ Toggles prev (held r) now ∧
    Pushes (held r) rest later

/-- The driver with its user: what was done to the queue, and what was popped. -/
structure Pipe where
  kbd : Kbd
  acts : List (Act (Bool × Byte))
  popped : List (Bool × Byte)

inductive PipeStep where
  | report (r : Report)
  | pop

def PipeStep.report? : PipeStep → Option Report
  | .report r => some r
  | .pop => none

def Pipe.step (s : Pipe) : PipeStep → Pipe
  | .report r =>
    ⟨processReport s.kbd r,
      s.acts ++ (reportEvents s.kbd.prev_modifiers s.kbd.prev_keys r).map .push, s.popped⟩
  | .pop =>
    match kbdPop s.kbd with
    | none => { s with acts := s.acts ++ [.pop] }
    | some (e, k) => ⟨k, s.acts ++ [.pop], s.popped ++ [e]⟩

def Pipe.steps (s : Pipe) (steps : List PipeStep) : Pipe := steps.foldl Pipe.step s

def pipe (old : Kbd) (e : Enumeration) (now : Word) : Pipe := ⟨kbdInit old e now, [], []⟩

section Report
variable {prevModifiers : Byte} {prevKeys : List Byte} (hprev : KeySlots prevKeys) (r : Report)

include hprev in
theorem reportEvents_toggles :
    Toggles (heldBy prevModifiers prevKeys) (held r)
      (reportEvents prevModifiers prevKeys r) where
  once := reportEvents_nodup hprev r
  changed := by
    intro u
    refine ⟨fun hu => ?_, reportEvents_complete hprev r⟩
    obtain ⟨e, he, rfl⟩ := List.mem_map.mp hu
    obtain ⟨hnow, hold, _⟩ := reportEvents_change hprev r he
    rw [hold, held, ← hnow]
    exact Bool.not_ne_self e.1
  direction := fun e he => (reportEvents_change hprev r he).1
  order := by
    refine ⟨_, _, _, rfl, ?_, ?_, ?_⟩
    · intro e he
      obtain ⟨bit, hbit, hu, _⟩ := (mem_modifierEvents _ _ e).mp he
      rw [hu, modifierUsage_toNat hbit]
      exact Nat.le_add_right _ _
    · intro e he
      obtain ⟨hreleased, _, hold, _⟩ := (mem_releaseEvents _ _ e).mp he
      exact ⟨hreleased, hprev.usages _ hold⟩
    · intro e he
      obtain ⟨hpressed, _, hnew, _⟩ := (mem_pressEvents _ _ e).mp he
      exact ⟨hpressed, r.usages _ hnew⟩

end Report

variable {k : Kbd} {q : Queue (Bool × Byte)}

theorem pending_length (k : Kbd) :
    (pending k).length = (k.write_idx + QUEUE_SIZE - k.read_idx) % QUEUE_SIZE := by
  simp [pending]

theorem full_iff (hk : RingOk k) :
    (pending k).length = QUEUE_SIZE - 1 ↔ (k.write_idx + 1) % QUEUE_SIZE = k.read_idx := by
  have hread := hk.read
  have hwrite := hk.write
  rw [pending_length]
  simp only [QUEUE_SIZE] at hread hwrite ⊢
  omega

/-- A full ring moves its reader past the oldest event. -/
theorem pending_push_full (hk : RingOk k) (pressed : Bool) {usage : Byte} (hu : usage ≠ 0)
    (hfull : (k.write_idx + 1) % QUEUE_SIZE = k.read_idx) :
    pending (queuePush k pressed usage) = (pending k).tail ++ [(pressed, usage)] := by
  have hread := hk.read
  have hwrite := hk.write
  have hpush : queuePush k pressed usage =
      { k with queue := Function.update k.queue k.write_idx (pack pressed usage),
               write_idx := (k.write_idx + 1) % QUEUE_SIZE,
               read_idx := (k.read_idx + 1) % QUEUE_SIZE,
               dropped := k.dropped + 1 } := by
    simp only [queuePush, if_neg hu, if_pos hfull]
  have hold : (k.write_idx + QUEUE_SIZE - k.read_idx) % QUEUE_SIZE = 30 + 1 := by
    simp only [QUEUE_SIZE] at hfull ⊢
    omega
  have hnew : ((k.write_idx + 1) % QUEUE_SIZE + QUEUE_SIZE - (k.read_idx + 1) % QUEUE_SIZE) %
      QUEUE_SIZE = 30 + 1 := by
    simp only [QUEUE_SIZE] at hfull ⊢
    omega
  have hlast : ((k.read_idx + 1) % QUEUE_SIZE + 30) % QUEUE_SIZE = k.write_idx := by
    simp only [QUEUE_SIZE] at hfull hread hwrite ⊢
    omega
  have htail : ∀ f : Nat → Bool × Byte, ((List.range (30 + 1)).map f).tail =
      (List.range 30).map fun i => f (i + 1) := by
    intro f
    rw [List.range_succ_eq_map, List.map_cons, List.tail_cons, List.map_map]
    rfl
  rw [hpush, pending, pending]
  simp only [hold, hnew]
  rw [htail, List.range_succ, List.map_append, List.map_singleton, hlast, Function.update_self,
    unpack_pack]
  congr 1
  refine List.map_congr_left fun i hi => ?_
  rw [List.mem_range] at hi
  have hidx : ((k.read_idx + 1) % QUEUE_SIZE + i) % QUEUE_SIZE =
      (k.read_idx + (i + 1)) % QUEUE_SIZE := by
    simp only [QUEUE_SIZE]
    omega
  have hne : (k.read_idx + (i + 1)) % QUEUE_SIZE ≠ k.write_idx := by
    simp only [QUEUE_SIZE] at hfull hread hwrite ⊢
    omega
  rw [hidx, Function.update_of_ne hne]

/-- A push is a put into the queue of the pending events. -/
theorem queuePush_put (hk : RingOk k) (hq : q.waiting = pending k)
    (hlost : q.lost.length = k.dropped) (e : Bool × Byte) (hu : e.2 ≠ 0) :
    (q.put (QUEUE_SIZE - 1) e).waiting = pending (queuePush k e.1 e.2) ∧
      (q.put (QUEUE_SIZE - 1) e).lost.length = (queuePush k e.1 e.2).dropped := by
  rw [put_lost (by decide), hlost]
  by_cases hfull : (k.write_idx + 1) % QUEUE_SIZE = k.read_idx
  · have hlen : q.waiting.length = QUEUE_SIZE - 1 := by rw [hq, (full_iff hk).mpr hfull]
    have hdropped : (queuePush k e.1 e.2).dropped = k.dropped + 1 := by
      simp only [queuePush, if_neg hu, if_pos hfull]
    rw [put_full hlen, hq, pending_push_full hk e.1 hu hfull, ← hq, if_pos hlen, hdropped]
    exact ⟨rfl, rfl⟩
  · have hlen : q.waiting.length ≠ QUEUE_SIZE - 1 := by
      rw [hq]
      exact fun h => hfull ((full_iff hk).mp h)
    have hfits : (queuePush k e.1 e.2).dropped = k.dropped := by
      simp only [queuePush, if_neg hu, if_neg hfull]
    rw [put_room hlen, hq, pending_push hk e.1 hu hfits, ← hq, if_neg hlen, hfits]
    exact ⟨rfl, rfl⟩

structure Agrees (k : Kbd) (q : Queue (Bool × Byte)) : Prop where
  ring : RingOk k
  waiting : q.waiting = pending k
  lost : q.lost.length = k.dropped

theorem pushAll_put (h : Agrees k q) (es : List (Bool × Byte)) (hes : ∀ e ∈ es, e.2 ≠ 0) :
    Agrees (pushAll k es) (q.run (QUEUE_SIZE - 1) (es.map .push)) ∧
      (q.run (QUEUE_SIZE - 1) (es.map .push)).taken = q.taken := by
  induction es generalizing k q with
  | nil => exact ⟨h, rfl⟩
  | cons e es ih =>
    obtain ⟨hwaiting, hlost⟩ := queuePush_put h.ring h.waiting h.lost e (hes e List.mem_cons_self)
    have hstep : Agrees (queuePush k e.1 e.2) (q.put (QUEUE_SIZE - 1) e) :=
      ⟨queuePush_ring k h.ring e.1 e.2, hwaiting, hlost⟩
    obtain ⟨hagrees, htaken⟩ := ih hstep fun e' he' => hes e' (List.mem_cons_of_mem e he')
    exact ⟨hagrees, htaken.trans (put_taken q e)⟩

/-- A pop is a leave, and hands out what it takes. -/
theorem kbdPop_leave (h : Agrees k q) {e : Bool × Byte} {k' : Kbd}
    (hpop : kbdPop k = some (e, k')) :
    Agrees k' (q.leave true) ∧ (q.leave true).taken = q.taken ++ [e] ∧ SameDriver k k' := by
  have hcons : q.waiting = e :: pending k' := h.waiting.trans (pending_pop h.ring hpop)
  have hk' : k' = { k with read_idx := (k.read_idx + 1) % QUEUE_SIZE } := by
    unfold kbdPop at hpop
    split at hpop
    · cases hpop
    · exact (Prod.mk.inj (Option.some.inj hpop)).2.symm
  refine ⟨⟨?_, ?_, ?_⟩, ?_, ?_⟩
  · rw [hk']
    exact ⟨Nat.mod_lt _ (by decide), h.ring.write⟩
  · rw [leave_cons hcons]
  · rw [leave_true_lost, hk']
    exact h.lost
  · rw [leave_cons hcons]
    simp [Queue.taken]
  · rw [hk']
    exact ⟨rfl, rfl, rfl, rfl⟩

theorem kbdPop_empty (h : Agrees k q) (hpop : kbdPop k = none) : q.leave true = q := by
  have heq : k.read_idx = k.write_idx := by
    unfold kbdPop at hpop
    split at hpop
    · assumption
    · cases hpop
  have hnil : q.waiting = [] := by
    rw [h.waiting, pending, heq, Nat.add_sub_cancel_left]
    rfl
  simp [Queue.leave, hnil]

def Pipe.queue (s : Pipe) : Queue (Bool × Byte) := empty.run (QUEUE_SIZE - 1) s.acts

structure Flows (s : Pipe) : Prop where
  agrees : Agrees s.kbd s.queue
  slots : KeySlots s.kbd.prev_keys
  taken : s.queue.taken = s.popped

theorem pipe_flows (old : Kbd) (e : Enumeration) (now : Word) : Flows (pipe old e now) := by
  obtain ⟨hread, hwrite, _, hkeys, hdropped⟩ := kbdInit_fields old e now
  refine ⟨⟨⟨?_, ?_⟩, ?_, hdropped.symm⟩, ?_, rfl⟩
  · rw [pipe, hread]
    decide
  · rw [pipe, hwrite]
    decide
  · rw [pipe, pending, hread, hwrite]
    rfl
  · rw [pipe, hkeys]
    exact ⟨by decide, by decide⟩

theorem Flows.report {s : Pipe} (h : Flows s) (r : Report) : Flows (s.step (.report r)) := by
  have hes : ∀ e ∈ reportEvents s.kbd.prev_modifiers s.kbd.prev_keys r, e.2 ≠ 0 :=
    fun e he => (reportEvents_change h.slots r he).2.2
  obtain ⟨hagrees, htaken⟩ := pushAll_put h.agrees _ hes
  have hqueue : (s.step (.report r)).queue = s.queue.run (QUEUE_SIZE - 1)
      ((reportEvents s.kbd.prev_modifiers s.kbd.prev_keys r).map .push) := run_append _ _
  have hkbd : (s.step (.report r)).kbd = processReport s.kbd r := rfl
  refine ⟨?_, ?_, ?_⟩
  · rw [hqueue, hkbd, processReport_eq]
    exact ⟨⟨hagrees.ring.read, hagrees.ring.write⟩, hagrees.waiting, hagrees.lost⟩
  · rw [hkbd, processReport_eq]
    exact r.slots
  · rw [hqueue, htaken]
    exact h.taken

theorem Flows.pop {s : Pipe} (h : Flows s) :
    Flows (s.step .pop) ∧ SameDriver s.kbd (s.step .pop).kbd ∧
      (s.step .pop).acts = s.acts ++ [.pop] := by
  cases hpop : kbdPop s.kbd with
  | none =>
    have hstep : s.step .pop = { s with acts := s.acts ++ [.pop] } := by
      simp only [Pipe.step, hpop]
    have hqueue : Pipe.queue { s with acts := s.acts ++ [.pop] } = s.queue :=
      (run_append _ _).trans (kbdPop_empty h.agrees hpop)
    rw [hstep]
    exact ⟨⟨hqueue ▸ h.agrees, h.slots, hqueue ▸ h.taken⟩, ⟨rfl, rfl, rfl, rfl⟩, rfl⟩
  | some ek =>
    obtain ⟨e, k⟩ := ek
    have hstep : s.step .pop = ⟨k, s.acts ++ [.pop], s.popped ++ [e]⟩ := by
      simp only [Pipe.step, hpop]
    have hqueue : Pipe.queue ⟨k, s.acts ++ [.pop], s.popped ++ [e]⟩ = s.queue.leave true :=
      run_append _ _
    obtain ⟨hagrees, htaken, hsame⟩ := kbdPop_leave h.agrees hpop
    rw [hstep]
    refine ⟨⟨hqueue ▸ hagrees, hsame.prev_keys ▸ h.slots, ?_⟩, hsame, rfl⟩
    rw [hqueue, htaken, h.taken]

theorem pushed_map_push (es : List (Bool × Byte)) : pushed (es.map Act.push) = es := by
  rw [pushed, List.filterMap_map]
  exact List.filterMap_some

/-- What a run of reports and pops puts in, and the queue behind it. -/
theorem Flows.steps {s : Pipe} (h : Flows s) (steps : List PipeStep) :
    Flows (s.steps steps) ∧ ∃ es, pushed (s.steps steps).acts = pushed s.acts ++ es ∧
      Pushes (heldBy s.kbd.prev_modifiers s.kbd.prev_keys) (steps.filterMap PipeStep.report?) es := by
  induction steps generalizing s with
  | nil => exact ⟨h, [], by simp [Pipe.steps], rfl⟩
  | cons st steps ih =>
    have hcons : s.steps (st :: steps) = (s.step st).steps steps := rfl
    rw [hcons]
    cases st with
    | report r =>
      obtain ⟨hflows, es, hes, hpushes⟩ := ih (h.report r)
      have hprev : heldBy (s.step (.report r)).kbd.prev_modifiers
          (s.step (.report r)).kbd.prev_keys = held r := rfl
      have hacts : pushed (s.step (.report r)).acts =
          pushed s.acts ++ reportEvents s.kbd.prev_modifiers s.kbd.prev_keys r :=
        (pushed_append _ _).trans (congrArg _ (pushed_map_push _))
      refine ⟨hflows, _, ?_, reportEvents s.kbd.prev_modifiers s.kbd.prev_keys r, es, rfl,
        reportEvents_toggles h.slots r, hprev ▸ hpushes⟩
      rw [hes, hacts, List.append_assoc]
    | pop =>
      obtain ⟨hflows, hsame, hacts⟩ := h.pop
      obtain ⟨hrest, es, hes, hpushes⟩ := ih hflows
      have hpop : pushed (s.step .pop).acts = pushed s.acts := by
        rw [hacts, pushed_append]
        exact List.append_nil _
      refine ⟨hrest, es, hes.trans (by rw [hpop]), ?_⟩
      rw [hsame.prev_keys, hsame.prev_modifiers] at hpushes
      exact hpushes

/-- From ch374_kbd_init on, whatever reports come in and however they are popped: every report
puts in what it changes, and every event put in is popped, still waits, or was the oldest one when
an event was put into the full queue, all in the order in which they were put in. -/
theorem keyboard_pipeline (old : Kbd) (e : Enumeration) (now : Word) (steps : List PipeStep) :
    let s := (pipe old e now).steps steps
    Pushes (fun _ => false) (steps.filterMap PipeStep.report?) (pushed s.acts) ∧
      s.queue.waiting = pending s.kbd ∧
      pushed s.acts = s.queue.departed.map Prod.snd ++ pending s.kbd ∧
      s.popped = (s.queue.departed.filter Prod.fst).map Prod.snd ∧
      s.popped.Sublist (pushed s.acts) ∧
      (s.queue.departed.filter fun d => !d.1).length = overflows (QUEUE_SIZE - 1) empty s.acts ∧
      s.kbd.dropped = overflows (QUEUE_SIZE - 1) empty s.acts := by
  intro s
  obtain ⟨hflows, es, hes, hpushes⟩ := (pipe_flows old e now).steps steps
  have hpushed : pushed s.acts = es := hes
  obtain ⟨_, _, hmods, hkeys, _⟩ := kbdInit_fields old e now
  have hheld : heldBy (pipe old e now).kbd.prev_modifiers (pipe old e now).kbd.prev_keys =
      fun _ => false := by
    rw [pipe, hmods, hkeys]
    exact heldOf_none
  have hhistory : s.queue.history = pushed s.acts := run_history empty s.acts
  have hlost : s.queue.lost.length = overflows (QUEUE_SIZE - 1) empty s.acts :=
    (run_lost (by decide) empty s.acts).trans (Nat.zero_add _)
  have htaken : s.queue.taken = s.popped := hflows.taken
  have hwaiting : s.queue.waiting = pending s.kbd := hflows.agrees.waiting
  refine ⟨?_, hwaiting, ?_, htaken.symm, ?_, ?_, hflows.agrees.lost.symm.trans hlost⟩
  · rw [hpushed, ← hheld]
    exact hpushes
  · rw [← hhistory, ← hwaiting]
    rfl
  · rw [← htaken, ← hhistory]
    exact taken_sublist s.queue
  · rw [← hlost, Queue.lost, List.length_map]

end AipcOs.KeyPipeline
