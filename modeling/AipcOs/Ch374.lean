import AipcOs.ByteMemory
import AipcOs.KeyEvents

/-! The keyboard behind the CH374 bridge: the event queue, the reports, and the loss and
enumeration of the device. -/
namespace AipcOs.Ch374
open ByteMemory KeyEvents

def QUEUE_SIZE : Nat := 32
def MAX_REPORTS_PER_POLL : Nat := 4
def RETRY_DELAY_MS : Word := 1000
def CH374_USAGE_MODIFIER_BASE : Byte := 0xE0

structure Report where
  modifiers : Byte
  keys : List Byte
  six : keys.length = 6
  distinct : (keys.filter (· ≠ 0)).Nodup
  usages : ∀ u ∈ keys, u.toNat < 0xE0

/-- What `read_report` comes back with. `short` is a report of fewer than 8 bytes. -/
inductive ReadResult where
  | report (r : Report)
  | short
  | nak
  | error

inductive Enumeration where
  | noDevice
  | setAddressFailed
  | setConfigurationFailed
  | ready
  deriving DecidableEq

/-- The static state. `dropped` counts the events that the full queue overwrote; the code does
not keep it. -/
structure Kbd where
  queue : Nat → BitVec 16
  read_idx : Nat
  write_idx : Nat
  prev_keys : List Byte
  prev_modifiers : Byte
  in_toggle : Bool
  next_enumerate_ms : Word
  initialized : Bool
  ready : Bool
  dropped : Nat

def pack (pressed : Bool) (usage : Byte) : BitVec 16 :=
  ((if pressed then 1 else 0 : BitVec 16) <<< 8) ||| usage.setWidth 16

def unpack (packed : BitVec 16) : Bool × Byte :=
  ((packed >>> 8) &&& 1 != 0, packed.setWidth 8)

def queuePush (k : Kbd) (pressed : Bool) (usage : Byte) : Kbd :=
  if usage = 0 then k
  else
    let k' := { k with queue := Function.update k.queue k.write_idx (pack pressed usage),
                       write_idx := (k.write_idx + 1) % QUEUE_SIZE }
    if k'.write_idx = k'.read_idx then
      { k' with read_idx := (k'.read_idx + 1) % QUEUE_SIZE, dropped := k.dropped + 1 }
    else k'

def kbdPop (k : Kbd) : Option ((Bool × Byte) × Kbd) :=
  if k.read_idx = k.write_idx then none
  else some (unpack (k.queue k.read_idx),
    { k with read_idx := (k.read_idx + 1) % QUEUE_SIZE })

def pushEvent (k : Kbd) : Option (Bool × Byte) → Kbd
  | none => k
  | some e => queuePush k e.1 e.2

def modifierEvent (prev modifiers : Byte) (bit : Nat) : Option (Bool × Byte) :=
  let mask := (1 : Byte) <<< bit
  let usage := CH374_USAGE_MODIFIER_BASE + BitVec.ofNat 8 bit
  if prev &&& mask = 0 ∧ modifiers &&& mask ≠ 0 then some (true, usage)
  else if prev &&& mask ≠ 0 ∧ modifiers &&& mask = 0 then some (false, usage)
  else none

def releaseEvent (keys : List Byte) (usage : Byte) : Option (Bool × Byte) :=
  if usage ≠ 0 ∧ usage ∉ keys then some (false, usage) else none

def pressEvent (prev : List Byte) (usage : Byte) : Option (Bool × Byte) :=
  if usage ≠ 0 ∧ usage ∉ prev then some (true, usage) else none

def processReport (k : Kbd) (r : Report) : Kbd :=
  let k₁ := (List.range 8).foldl
    (fun k' bit => pushEvent k' (modifierEvent k.prev_modifiers r.modifiers bit)) k
  let k₂ := k.prev_keys.foldl (fun k' usage => pushEvent k' (releaseEvent r.keys usage)) k₁
  let k₃ := r.keys.foldl (fun k' usage => pushEvent k' (pressEvent k.prev_keys usage)) k₂
  { k₃ with prev_keys := r.keys, prev_modifiers := r.modifiers }

def noKeys : List Byte := List.replicate 6 0

def enumerate (k : Kbd) (e : Enumeration) : Bool × Kbd :=
  let k := { k with ready := false, in_toggle := false, prev_keys := noKeys }
  match e with
  | .ready => (true, { k with ready := true })
  | _ => (false, k)

def kbdInit (old : Kbd) (e : Enumeration) (now : Word) : Kbd :=
  let k := { old with queue := fun _ => 0, read_idx := 0, write_idx := 0, prev_keys := noKeys,
                      prev_modifiers := 0, in_toggle := false, initialized := true, dropped := 0 }
  match enumerate k e with
  | (true, k') => k'
  | (false, k') => { k' with next_enumerate_ms := now + RETRY_DELAY_MS }

/-- What one call of `ch374_kbd_poll` meets: the clock, the outcome of an enumeration, and the
outcome of each read. -/
structure Poll where
  now : Word
  later : Word
  enumeration : Enumeration
  reads : Nat → ReadResult

inductive BusEvent where
  | enumerated
  | report (r : Report)

def Kbd.lose (k : Kbd) (now : Word) : Kbd :=
  { k with ready := false, next_enumerate_ms := now + RETRY_DELAY_MS }

def Kbd.toggle (k : Kbd) : Kbd := { k with in_toggle := !k.in_toggle }

def pollReads (p : Poll) : Nat → Nat → Kbd → Kbd × List BusEvent
  | 0, _, k => (k, [])
  | n + 1, i, k =>
    match p.reads i with
    | .report r =>
      let rest := pollReads p n (i + 1) (processReport k.toggle r)
      (rest.1, .report r :: rest.2)
    | .short => (k.toggle.lose p.later, [])
    | .nak => (k, [])
    | .error => (k.lose p.later, [])

def kbdPoll (p : Poll) (k : Kbd) : Kbd × List BusEvent :=
  if ¬ k.initialized then (k, [])
  else if ¬ k.ready then
    if p.now ≥ k.next_enumerate_ms then
      match enumerate k p.enumeration with
      | (true, k') => (k', [.enumerated])
      | (false, k') => ({ k' with next_enumerate_ms := p.later + RETRY_DELAY_MS }, [])
    else (k, [])
  else pollReads p MAX_REPORTS_PER_POLL 0 k

def pending (k : Kbd) : List (Bool × Byte) :=
  (List.range ((k.write_idx + QUEUE_SIZE - k.read_idx) % QUEUE_SIZE)).map
    fun i => unpack (k.queue ((k.read_idx + i) % QUEUE_SIZE))

def pushAll (k : Kbd) (es : List (Bool × Byte)) : Kbd :=
  es.foldl (fun k' e => queuePush k' e.1 e.2) k

def reportEvents (prevModifiers : Byte) (prevKeys : List Byte) (r : Report) :
    List (Bool × Byte) :=
  (List.range 8).filterMap (modifierEvent prevModifiers r.modifiers) ++
    (prevKeys.filterMap (releaseEvent r.keys) ++ r.keys.filterMap (pressEvent prevKeys))

theorem foldl_pushEvent {α : Type} (ev : α → Option (Bool × Byte)) (xs : List α) (k : Kbd) :
    xs.foldl (fun k' x => pushEvent k' (ev x)) k = pushAll k (xs.filterMap ev) := by
  induction xs generalizing k with
  | nil => rfl
  | cons x xs ih =>
    rw [List.foldl_cons, ih]
    cases hx : ev x with
    | none => rw [List.filterMap_cons_none hx]; rfl
    | some e => rw [List.filterMap_cons_some hx]; rfl

theorem processReport_eq (k : Kbd) (r : Report) :
    processReport k r =
      { pushAll k (reportEvents k.prev_modifiers k.prev_keys r) with
        prev_keys := r.keys, prev_modifiers := r.modifiers } := by
  simp only [processReport, foldl_pushEvent]
  rw [reportEvents, pushAll, pushAll, pushAll, pushAll, List.foldl_append, List.foldl_append]

structure SameDriver (k k' : Kbd) : Prop where
  prev_keys : k'.prev_keys = k.prev_keys
  prev_modifiers : k'.prev_modifiers = k.prev_modifiers
  initialized : k'.initialized = k.initialized
  ready : k'.ready = k.ready

structure RingOk (k : Kbd) : Prop where
  read : k.read_idx < QUEUE_SIZE
  write : k.write_idx < QUEUE_SIZE

theorem unpack_pack (pressed : Bool) (usage : Byte) : unpack (pack pressed usage) = (pressed, usage) := by
  cases pressed with
  | false => revert usage; decide +kernel
  | true => revert usage; decide +kernel

theorem pending_push {k : Kbd} (hk : RingOk k) (pressed : Bool) {usage : Byte} (hu : usage ≠ 0)
    (hfits : (queuePush k pressed usage).dropped = k.dropped) :
    pending (queuePush k pressed usage) = pending k ++ [(pressed, usage)] := by
  have hread := hk.read
  have hwrite := hk.write
  simp only [QUEUE_SIZE] at hread hwrite
  have hroom : (k.write_idx + 1) % QUEUE_SIZE ≠ k.read_idx := by
    intro hfull
    simp only [queuePush, if_neg hu, if_pos hfull] at hfits
    omega
  have hpush : queuePush k pressed usage =
      { k with queue := Function.update k.queue k.write_idx (pack pressed usage),
               write_idx := (k.write_idx + 1) % QUEUE_SIZE } := by
    simp only [queuePush, if_neg hu, if_neg hroom]
  have hlen : ((k.write_idx + 1) % QUEUE_SIZE + QUEUE_SIZE - k.read_idx) % QUEUE_SIZE =
      (k.write_idx + QUEUE_SIZE - k.read_idx) % QUEUE_SIZE + 1 := by
    simp only [QUEUE_SIZE] at hroom ⊢
    omega
  have hlast : (k.read_idx + (k.write_idx + QUEUE_SIZE - k.read_idx) % QUEUE_SIZE) % QUEUE_SIZE =
      k.write_idx := by
    simp only [QUEUE_SIZE]
    omega
  rw [hpush, pending]
  simp only [hlen]
  rw [List.range_succ, List.map_append, List.map_singleton, hlast, Function.update_self,
    unpack_pack]
  congr 1
  refine List.map_congr_left fun i hi => ?_
  rw [List.mem_range] at hi
  have hne : (k.read_idx + i) % QUEUE_SIZE ≠ k.write_idx := by
    simp only [QUEUE_SIZE] at hi ⊢
    omega
  rw [Function.update_of_ne hne]

theorem pending_pop {k k' : Kbd} (hk : RingOk k) {e : Bool × Byte} (h : kbdPop k = some (e, k')) :
    pending k = e :: pending k' := by
  have hread := hk.read
  have hwrite := hk.write
  simp only [QUEUE_SIZE] at hread hwrite
  unfold kbdPop at h
  split at h
  · cases h
  · next hne =>
    obtain ⟨rfl, rfl⟩ := Prod.mk.inj (Option.some.inj h)
    have hlen : (k.write_idx + QUEUE_SIZE - k.read_idx) % QUEUE_SIZE =
        (k.write_idx + QUEUE_SIZE - (k.read_idx + 1) % QUEUE_SIZE) % QUEUE_SIZE + 1 := by
      simp only [QUEUE_SIZE]
      omega
    rw [pending, hlen, List.range_succ_eq_map, List.map_cons, List.map_map]
    congr 1
    · rw [Nat.add_zero, Nat.mod_eq_of_lt hk.read]
    · refine List.map_congr_left fun i _ => ?_
      have hidx : (k.read_idx + (i + 1)) % QUEUE_SIZE =
          ((k.read_idx + 1) % QUEUE_SIZE + i) % QUEUE_SIZE := by
        simp only [QUEUE_SIZE]
        omega
      exact congrArg (fun j => unpack (k.queue j)) hidx

theorem queuePush_ring (k : Kbd) (hk : RingOk k) (pressed : Bool) (usage : Byte) :
    RingOk (queuePush k pressed usage) := by
  have hmod : ∀ n, n % QUEUE_SIZE < QUEUE_SIZE := fun n => Nat.mod_lt n (by decide)
  unfold queuePush
  split
  · exact hk
  · simp only
    split
    · exact ⟨hmod _, hmod _⟩
    · exact ⟨hk.read, hmod _⟩

theorem queuePush_same (k : Kbd) (pressed : Bool) (usage : Byte) :
    SameDriver k (queuePush k pressed usage) ∧ k.dropped ≤ (queuePush k pressed usage).dropped := by
  unfold queuePush
  split
  · exact ⟨⟨rfl, rfl, rfl, rfl⟩, le_rfl⟩
  · simp only
    split
    · exact ⟨⟨rfl, rfl, rfl, rfl⟩, Nat.le_succ _⟩
    · exact ⟨⟨rfl, rfl, rfl, rfl⟩, le_rfl⟩

theorem pushAll_same (k : Kbd) (es : List (Bool × Byte)) :
    SameDriver k (pushAll k es) ∧ k.dropped ≤ (pushAll k es).dropped := by
  induction es generalizing k with
  | nil => exact ⟨⟨rfl, rfl, rfl, rfl⟩, le_rfl⟩
  | cons e es ih =>
    obtain ⟨⟨hkeys, hmods, hinit, hready⟩, hle⟩ := queuePush_same k e.1 e.2
    obtain ⟨⟨hkeys', hmods', hinit', hready'⟩, hle'⟩ := ih (queuePush k e.1 e.2)
    exact ⟨⟨hkeys'.trans hkeys, hmods'.trans hmods, hinit'.trans hinit, hready'.trans hready⟩,
      le_trans hle hle'⟩

/-- Without an overwritten event, the queue grows by what is pushed. -/
theorem pushAll_pending (k : Kbd) (hk : RingOk k) (es : List (Bool × Byte))
    (hes : ∀ e ∈ es, e.2 ≠ 0) (hfits : (pushAll k es).dropped = k.dropped) :
    RingOk (pushAll k es) ∧ pending (pushAll k es) = pending k ++ es := by
  induction es generalizing k with
  | nil => exact ⟨hk, (List.append_nil _).symm⟩
  | cons e es ih =>
    have hle := (queuePush_same k e.1 e.2).2
    have hle' := (pushAll_same (queuePush k e.1 e.2) es).2
    have hstep : pushAll k (e :: es) = pushAll (queuePush k e.1 e.2) es := rfl
    rw [hstep] at hfits ⊢
    obtain ⟨hring, hpend⟩ := ih (queuePush k e.1 e.2) (queuePush_ring k hk e.1 e.2)
      (fun e' he' => hes e' (List.mem_cons_of_mem e he')) (by omega)
    refine ⟨hring, ?_⟩
    rw [hpend, pending_push hk e.1 (hes e List.mem_cons_self) (by omega), List.append_assoc]
    rfl

def heldBy (modifiers : Byte) (keys : List Byte) (usage : Byte) : Bool :=
  decide (usage ≠ 0 ∧ usage ∈ keys) || (List.range 8).any fun bit =>
    usage == CH374_USAGE_MODIFIER_BASE + BitVec.ofNat 8 bit && modifiers &&& (1 : Byte) <<< bit != 0

structure KeySlots (keys : List Byte) : Prop where
  distinct : (keys.filter (· ≠ 0)).Nodup
  usages : ∀ u ∈ keys, u.toNat < 0xE0

def modifierUsage (bit : Nat) : Byte := CH374_USAGE_MODIFIER_BASE + BitVec.ofNat 8 bit

theorem modifierUsage_toNat {bit : Nat} (hbit : bit < 8) :
    (modifierUsage bit).toNat = 0xE0 + bit := by
  interval_cases bit <;> rfl

theorem modifierUsage_inj {a b : Nat} (ha : a < 8) (hb : b < 8)
    (h : modifierUsage a = modifierUsage b) : a = b := by
  have := congrArg BitVec.toNat h
  rw [modifierUsage_toNat ha, modifierUsage_toNat hb] at this
  omega

theorem heldBy_eq_true (modifiers : Byte) (keys : List Byte) (usage : Byte) :
    heldBy modifiers keys usage = true ↔ (usage ≠ 0 ∧ usage ∈ keys) ∨
      ∃ bit < 8, usage = modifierUsage bit ∧ modifiers &&& (1 : Byte) <<< bit ≠ 0 := by
  simp [heldBy, modifierUsage]

theorem heldBy_modifier {modifiers : Byte} {keys : List Byte} (hkeys : KeySlots keys) {bit : Nat}
    (hbit : bit < 8) :
    heldBy modifiers keys (modifierUsage bit) = (modifiers &&& (1 : Byte) <<< bit != 0) := by
  rw [Bool.eq_iff_iff, heldBy_eq_true, bne_iff_ne]
  constructor
  · intro hor
    obtain ⟨-, hmem⟩ | ⟨b, hb, heq, hset⟩ := hor
    · have := hkeys.usages _ hmem
      rw [modifierUsage_toNat hbit] at this
      omega
    · rwa [modifierUsage_inj hbit hb heq]
  · intro hset
    exact Or.inr ⟨bit, hbit, rfl, hset⟩

theorem heldBy_key {modifiers : Byte} {keys : List Byte} {usage : Byte}
    (hu : usage.toNat < 0xE0) :
    heldBy modifiers keys usage = true ↔ usage ≠ 0 ∧ usage ∈ keys := by
  rw [heldBy_eq_true]
  refine or_iff_left ?_
  intro hex
  obtain ⟨bit, hbit, rfl, -⟩ := hex
  rw [modifierUsage_toNat hbit] at hu
  omega

theorem modifierEvent_eq (prev modifiers : Byte) (bit : Nat) :
    modifierEvent prev modifiers bit =
      if (prev &&& (1 : Byte) <<< bit != 0) = (modifiers &&& (1 : Byte) <<< bit != 0) then none
      else some (modifiers &&& (1 : Byte) <<< bit != 0, modifierUsage bit) := by
  unfold modifierEvent modifierUsage
  simp only
  generalize prev &&& (1 : Byte) <<< bit = old
  generalize modifiers &&& (1 : Byte) <<< bit = new
  have hold : (old != 0) = decide (old ≠ 0) := by simp [bne, Bool.beq_eq_decide_eq]
  have hnew : (new != 0) = decide (new ≠ 0) := by simp [bne, Bool.beq_eq_decide_eq]
  rw [hold, hnew]
  by_cases hp : old = 0 <;> by_cases hm : new = 0 <;> 
    simp only [hp, hm, ne_eq, not_true_eq_false, not_false_eq_true, and_self, and_true, and_false,
      if_true, if_false, decide_true, decide_false, reduceCtorEq]

theorem mem_modifierEvents (prev modifiers : Byte) (e : Bool × Byte) :
    e ∈ (List.range 8).filterMap (modifierEvent prev modifiers) ↔
      ∃ bit < 8, e.2 = modifierUsage bit ∧ e.1 = (modifiers &&& (1 : Byte) <<< bit != 0) ∧
        (prev &&& (1 : Byte) <<< bit != 0) = !e.1 := by
  simp only [List.mem_filterMap, List.mem_range]
  refine exists_congr fun bit => and_congr_right fun _ => ?_
  obtain ⟨pressed, usage⟩ := e
  rw [modifierEvent_eq]
  generalize (prev &&& (1 : Byte) <<< bit != 0) = old
  generalize (modifiers &&& (1 : Byte) <<< bit != 0) = new
  constructor
  · intro h
    split at h
    · cases h
    · next hne =>
      cases h
      exact ⟨rfl, rfl, Bool.eq_not_of_ne hne⟩
  · intro hex
    obtain ⟨rfl, rfl, hold⟩ := hex
    rw [if_neg (by simp [hold])]

/-- The keys of one list that are not in the other. -/
theorem mem_keyEvents (pressed : Bool) (keys others : List Byte) (e : Bool × Byte) :
    e ∈ keys.filterMap (fun usage =>
        if usage ≠ 0 ∧ usage ∉ others then some (pressed, usage) else none) ↔
      e.1 = pressed ∧ e.2 ≠ 0 ∧ e.2 ∈ keys ∧ e.2 ∉ others := by
  obtain ⟨_, usage⟩ := e
  rw [List.mem_filterMap]
  constructor
  · intro ⟨u, hu, h⟩
    split at h
    · next hc =>
      cases h
      exact ⟨rfl, hc.1, hu, hc.2⟩
    · cases h
  · intro ⟨hp, h0, hu, hnot⟩
    cases hp
    exact ⟨usage, hu, if_pos ⟨h0, hnot⟩⟩

theorem mem_releaseEvents (prev keys : List Byte) (e : Bool × Byte) :
    e ∈ prev.filterMap (releaseEvent keys) ↔
      e.1 = false ∧ e.2 ≠ 0 ∧ e.2 ∈ prev ∧ e.2 ∉ keys := mem_keyEvents false prev keys e

theorem mem_pressEvents (prev keys : List Byte) (e : Bool × Byte) :
    e ∈ keys.filterMap (pressEvent prev) ↔
      e.1 = true ∧ e.2 ≠ 0 ∧ e.2 ∈ keys ∧ e.2 ∉ prev := mem_keyEvents true keys prev e

section Report
variable {prevModifiers : Byte} {prevKeys : List Byte} (hprev : KeySlots prevKeys) (r : Report)

theorem Report.slots : KeySlots r.keys := ⟨r.distinct, r.usages⟩

include hprev in
/-- Every event of a report takes its key from what was held to what is. -/
theorem reportEvents_change {e : Bool × Byte} (he : e ∈ reportEvents prevModifiers prevKeys r) :
    e.1 = heldBy r.modifiers r.keys e.2 ∧ heldBy prevModifiers prevKeys e.2 = !e.1 ∧ e.2 ≠ 0 := by
  rw [reportEvents, List.mem_append, List.mem_append, mem_modifierEvents, mem_releaseEvents,
    mem_pressEvents] at he
  rcases he with ⟨bit, hbit, hu, hnew, hold⟩ | ⟨hp, h0, hold, hnew⟩ | ⟨hp, h0, hnew, hold⟩
  · rw [hu, heldBy_modifier r.slots hbit, heldBy_modifier hprev hbit]
    refine ⟨hnew, hold, ?_⟩
    intro h0
    have := congrArg BitVec.toNat h0
    rw [modifierUsage_toNat hbit] at this
    simp at this
  · have hlow := hprev.usages _ hold
    refine ⟨?_, ?_, h0⟩
    · rw [hp, eq_comm, ← Bool.not_eq_true, heldBy_key hlow]
      exact fun h => hnew h.2
    · rw [hp, Bool.not_false, heldBy_key hlow]
      exact ⟨h0, hold⟩
  · have hlow := r.usages _ hnew
    refine ⟨?_, ?_, h0⟩
    · rw [hp, eq_comm, heldBy_key hlow]
      exact ⟨h0, hnew⟩
    · rw [hp, Bool.not_true, ← Bool.not_eq_true, heldBy_key hlow]
      exact fun h => hold h.2

include hprev in
/-- Whatever changes with a report has its event. -/
theorem reportEvents_complete {u : Byte}
    (hu : heldBy prevModifiers prevKeys u ≠ heldBy r.modifiers r.keys u) :
    u ∈ (reportEvents prevModifiers prevKeys r).map Prod.snd := by
  refine List.mem_map.mpr ⟨(heldBy r.modifiers r.keys u, u), ?_, rfl⟩
  have hold := Bool.eq_not_of_ne hu
  rw [reportEvents, List.mem_append, List.mem_append, mem_modifierEvents, mem_releaseEvents,
    mem_pressEvents]
  have hmodifier : ∀ bit < 8, u = modifierUsage bit →
      ∃ bit < 8, u = modifierUsage bit ∧
        heldBy r.modifiers r.keys u = (r.modifiers &&& (1 : Byte) <<< bit != 0) ∧
        (prevModifiers &&& (1 : Byte) <<< bit != 0) = !heldBy r.modifiers r.keys u := by
    intro bit hbit heq
    obtain rfl := heq
    exact ⟨bit, hbit, rfl, heldBy_modifier r.slots hbit, by
      rw [← hold, heldBy_modifier hprev hbit]⟩
  cases hnew : heldBy r.modifiers r.keys u with
  | true =>
    rcases (heldBy_eq_true _ _ _).mp hnew with ⟨h0, hmem⟩ | ⟨bit, hbit, hub, -⟩
    · refine Or.inr (Or.inr ⟨rfl, h0, hmem, ?_⟩)
      intro hin
      rw [hnew, (heldBy_key (r.usages u hmem)).mpr ⟨h0, hin⟩] at hold
      cases hold
    · rw [← hnew]
      exact Or.inl (hmodifier bit hbit hub)
  | false =>
    rw [hnew, Bool.not_false] at hold
    rcases (heldBy_eq_true _ _ _).mp hold with ⟨h0, hmem⟩ | ⟨bit, hbit, hub, -⟩
    · refine Or.inr (Or.inl ⟨rfl, h0, hmem, ?_⟩)
      intro hin
      rw [(heldBy_key (hprev.usages u hmem)).mpr ⟨h0, hin⟩] at hnew
      cases hnew
    · rw [← hnew]
      exact Or.inl (hmodifier bit hbit hub)

/-- The usages of the events that one loop over the slots emits. -/
theorem slotEvents_usages {other : List Byte} {ev : Byte → Option (Bool × Byte)} (b : Bool)
    (hev : ∀ u, ev u = if u ≠ 0 ∧ u ∉ other then some (b, u) else none) (slots : List Byte) :
    ((slots.filterMap ev).map Prod.snd).Sublist (slots.filter (· ≠ 0)) := by
  induction slots with
  | nil => exact List.Sublist.refl _
  | cons u slots ih =>
    by_cases hc : u ≠ 0 ∧ u ∉ other
    · have hd : decide (u ≠ 0) = true := decide_eq_true hc.1
      rw [List.filterMap_cons_some ((hev u).trans (if_pos hc)), List.map_cons]
      simp only [List.filter_cons, hd, if_true]
      exact ih.cons_cons u
    · rw [List.filterMap_cons_none ((hev u).trans (if_neg hc)), List.filter_cons]
      split
      · exact ih.cons u
      · exact ih

theorem modifierEvents_nodup (prev modifiers : Byte) :
    (((List.range 8).filterMap (modifierEvent prev modifiers)).map Prod.snd).Nodup := by
  have hsub : (((List.range 8).filterMap (modifierEvent prev modifiers)).map Prod.snd).Sublist
      ((List.range 8).map modifierUsage) := by
    generalize List.range 8 = bits
    induction bits with
    | nil => exact List.Sublist.refl _
    | cons bit bits ih =>
      cases he : modifierEvent prev modifiers bit with
      | none =>
        rw [List.filterMap_cons_none he]
        exact ih.cons _
      | some e =>
        have hu : e.2 = modifierUsage bit := by
          rw [modifierEvent_eq] at he
          split at he
          · cases he
          · cases he
            rfl
        rw [List.filterMap_cons_some he, List.map_cons, List.map_cons, hu]
        exact ih.cons_cons _
  exact hsub.nodup (by decide)

include hprev in
theorem reportEvents_nodup :
    ((reportEvents prevModifiers prevKeys r).map Prod.snd).Nodup := by
  have hrelease : ((prevKeys.filterMap (releaseEvent r.keys)).map Prod.snd).Nodup := by
    exact (slotEvents_usages false (fun _ => rfl) prevKeys).nodup hprev.distinct
  have hpress : ((r.keys.filterMap (pressEvent prevKeys)).map Prod.snd).Nodup := by
    exact (slotEvents_usages true (fun _ => rfl) r.keys).nodup r.distinct
  rw [reportEvents, List.map_append, List.map_append]
  refine List.Nodup.append (modifierEvents_nodup _ _) (List.Nodup.append hrelease hpress ?_) ?_
  · intro u hu hu'
    obtain ⟨e, he, rfl⟩ := List.mem_map.mp hu
    obtain ⟨e', he', heq⟩ := List.mem_map.mp hu'
    have hin := ((mem_pressEvents _ _ _).mp he').2.2.1
    exact ((mem_releaseEvents _ _ _).mp he).2.2.2 (heq ▸ hin)
  · intro u hu hu'
    obtain ⟨e, he, rfl⟩ := List.mem_map.mp hu
    obtain ⟨bit, hbit, heq, -⟩ := (mem_modifierEvents _ _ _).mp he
    have hlow : e.2.toNat < 0xE0 := by
      rcases List.mem_append.mp hu' with h | h
      · obtain ⟨e', he', heq'⟩ := List.mem_map.mp h
        exact heq' ▸ hprev.usages _ ((mem_releaseEvents _ _ _).mp he').2.2.1
      · obtain ⟨e', he', heq'⟩ := List.mem_map.mp h
        exact heq' ▸ r.usages _ ((mem_pressEvents _ _ _).mp he').2.2.1
    rw [heq, modifierUsage_toNat hbit] at hlow
    omega

include hprev in
/-- A report switches what was held to what it holds. -/
theorem reportEvents_switch (prevModifiers : Byte) :
    Switches (heldBy prevModifiers prevKeys) (reportEvents prevModifiers prevKeys r) ∧
    replay (heldBy prevModifiers prevKeys) (reportEvents prevModifiers prevKeys r) =
      heldBy r.modifiers r.keys := by
  have hchange : ∀ e ∈ reportEvents prevModifiers prevKeys r,
      e.1 = !heldBy prevModifiers prevKeys e.2 := by
    intro e he
    rw [(reportEvents_change hprev r he).2.1, Bool.not_not]
  obtain ⟨hswitch, hreplay⟩ := switches_of_changes _ _ (reportEvents_nodup hprev r) hchange
  refine ⟨hswitch, funext fun u => ?_⟩
  rw [hreplay]
  split
  · next hu =>
    obtain ⟨e, he, rfl⟩ := List.mem_map.mp hu
    rw [← (reportEvents_change hprev r he).1, (reportEvents_change hprev r he).2.1, Bool.not_not]
  · next hu =>
    by_contra hne
    exact hu (reportEvents_complete hprev r hne)

end Report

structure Run where
  kbd : Kbd
  popped : List (Bool × Byte)
  last : Option Report

inductive Step where
  | poll (p : Poll)
  | pop

def note : Option Report → BusEvent → Option Report
  | _, .enumerated => none
  | _, .report r => some r

def Run.step (s : Run) : Step → Run
  | .poll p => ⟨(kbdPoll p s.kbd).1, s.popped, (kbdPoll p s.kbd).2.foldl note s.last⟩
  | .pop =>
    match kbdPop s.kbd with
    | none => s
    | some (e, k) => ⟨k, s.popped ++ [e], s.last⟩

def Run.steps (s : Run) (steps : List Step) : Run := steps.foldl Run.step s

def start (old : Kbd) (e : Enumeration) (now : Word) : Run := ⟨kbdInit old e now, [], none⟩

def modifiersOf : Option Report → Byte
  | none => 0
  | some r => r.modifiers

def keysOf : Option Report → List Byte
  | none => noKeys
  | some r => r.keys

def heldOf (last : Option Report) : Byte → Bool := heldBy (modifiersOf last) (keysOf last)

def Consistent (s : Run) : Prop :=
  (∀ u, replay (fun _ => false) (s.popped ++ pending s.kbd) u = heldOf s.last u) ∧
    ∀ u, Alternates (presses (s.popped ++ pending s.kbd) u)

def Enumerates (k : Kbd) (p : Poll) : Prop :=
  k.initialized = true ∧ k.ready = false ∧ k.next_enumerate_ms ≤ p.now ∧ p.enumeration = .ready

/-- Nothing is held where the step enumerates. -/
def Meets (s : Run) : Step → Prop
  | .poll p => Enumerates s.kbd p → ∀ u, heldOf s.last u = false
  | .pop => True

def MeetsAll (s : Run) : List Step → Prop
  | [] => True
  | st :: rest => Meets s st ∧ MeetsAll (s.step st) rest

structure Inv (s : Run) : Prop where
  ring : RingOk s.kbd
  modifiers : s.kbd.prev_modifiers = modifiersOf s.last
  keys : s.kbd.ready = true → s.kbd.prev_keys = keysOf s.last
  switches : Switches (fun _ => false) (s.popped ++ pending s.kbd)
  replays : replay (fun _ => false) (s.popped ++ pending s.kbd) = heldOf s.last

theorem slots_keysOf (last : Option Report) : KeySlots (keysOf last) := by
  cases last with
  | none => exact ⟨by decide, by decide⟩
  | some r => exact r.slots

theorem heldOf_none : heldOf none = fun _ => false := by
  funext u
  rw [← Bool.not_eq_true, heldOf, heldBy_eq_true]
  intro hor
  obtain ⟨h0, hmem⟩ | ⟨bit, -, -, hset⟩ := hor
  · exact h0 (List.eq_of_mem_replicate hmem)
  · exact hset (BitVec.zero_and)

theorem modifiers_eq_zero {last : Option Report} (h : ∀ u, heldOf last u = false) :
    modifiersOf last = 0 := by
  have hbits : ∀ bit < 8, modifiersOf last &&& (1 : Byte) <<< bit = 0 := by
    intro bit hbit
    have := h (modifierUsage bit)
    rw [heldOf, heldBy_modifier (slots_keysOf last) hbit] at this
    simpa using this
  have hall : ∀ m : Byte, (∀ bit < 8, m &&& (1 : Byte) <<< bit = 0) → m = 0 := by decide +kernel
  exact hall _ hbits

theorem Inv.consistent {s : Run} (h : Inv s) : Consistent s :=
  ⟨fun u => congrFun h.replays u, alternates_of_switches _ h.switches⟩

theorem Inv.report {s : Run} (h : Inv s) (hready : s.kbd.ready = true) (r : Report)
    (hfits : (processReport s.kbd.toggle r).dropped = s.kbd.dropped) :
    Inv ⟨processReport s.kbd.toggle r, s.popped, some r⟩ := by
  have hprev : KeySlots s.kbd.prev_keys := h.keys hready ▸ slots_keysOf s.last
  have hheld : heldOf s.last = heldBy s.kbd.prev_modifiers s.kbd.prev_keys := by
    rw [h.modifiers, h.keys hready]
    rfl
  rw [processReport_eq] at hfits ⊢
  have hring : RingOk s.kbd.toggle := ⟨h.ring.read, h.ring.write⟩
  obtain ⟨hring', hpend⟩ := pushAll_pending s.kbd.toggle hring
    (reportEvents s.kbd.prev_modifiers s.kbd.prev_keys r)
    (fun e he => (reportEvents_change hprev r he).2.2) hfits
  have hpending : pending (pushAll s.kbd.toggle
      (reportEvents s.kbd.prev_modifiers s.kbd.prev_keys r)) =
      pending s.kbd ++ reportEvents s.kbd.prev_modifiers s.kbd.prev_keys r := hpend
  obtain ⟨hswitch, hreplay⟩ := reportEvents_switch hprev r s.kbd.prev_modifiers
  refine ⟨⟨hring'.read, hring'.write⟩, rfl, fun _ => rfl, ?_, ?_⟩
  · change Switches _ (s.popped ++ pending (pushAll s.kbd.toggle
      (reportEvents s.kbd.prev_modifiers s.kbd.prev_keys r)))
    rw [hpending, ← List.append_assoc, switches_append, h.replays, hheld]
    exact ⟨h.switches, hswitch⟩
  · change replay _ (s.popped ++ pending (pushAll s.kbd.toggle
      (reportEvents s.kbd.prev_modifiers s.kbd.prev_keys r))) = _
    rw [hpending, ← List.append_assoc, replay_append, h.replays, hheld]
    exact hreplay

/-- A device that is not there keeps what was put in. -/
theorem Inv.not_ready {s : Run} (h : Inv s) {k : Kbd} (hqueue : k.queue = s.kbd.queue)
    (hread : k.read_idx = s.kbd.read_idx) (hwrite : k.write_idx = s.kbd.write_idx)
    (hmods : k.prev_modifiers = s.kbd.prev_modifiers) (hready : k.ready = false) :
    Inv ⟨k, s.popped, s.last⟩ := by
  have hpend : pending k = pending s.kbd := by rw [pending, pending, hqueue, hread, hwrite]
  refine ⟨⟨?_, ?_⟩, hmods.trans h.modifiers, ?_, ?_, ?_⟩
  · rw [hread]
    exact h.ring.read
  · rw [hwrite]
    exact h.ring.write
  · intro hr
    rw [hready] at hr
    cases hr
  · rw [hpend]
    exact h.switches
  · rw [hpend]
    exact h.replays

theorem processReport_same (k : Kbd) (r : Report) :
    (processReport k r).ready = k.ready ∧ k.dropped ≤ (processReport k r).dropped := by
  obtain ⟨hsame, hle⟩ := pushAll_same k (reportEvents k.prev_modifiers k.prev_keys r)
  rw [processReport_eq]
  exact ⟨hsame.ready, hle⟩

theorem lose_dropped (k : Kbd) (now : Word) : (k.lose now).dropped = k.dropped := by
  unfold Kbd.lose
  rfl

theorem Inv.lose {s : Run} (h : Inv s) (now : Word) : Inv ⟨s.kbd.lose now, s.popped, s.last⟩ := by
  unfold Kbd.lose
  exact h.not_ready rfl rfl rfl rfl rfl

theorem pollReads_dropped (p : Poll) (n i : Nat) (k : Kbd) :
    k.dropped ≤ (pollReads p n i k).1.dropped := by
  induction n generalizing i k with
  | zero => exact le_rfl
  | succ n ih =>
    unfold pollReads
    cases p.reads i with
    | report r => exact le_trans (processReport_same k.toggle r).2 (ih _ _)
    | short => exact (lose_dropped k.toggle p.later).ge
    | nak => exact le_rfl
    | error => exact (lose_dropped k p.later).ge

theorem Inv.reads {s : Run} (h : Inv s) (hready : s.kbd.ready = true) (p : Poll) (n i : Nat)
    (hfits : (pollReads p n i s.kbd).1.dropped = s.kbd.dropped) :
    Inv ⟨(pollReads p n i s.kbd).1, s.popped, (pollReads p n i s.kbd).2.foldl note s.last⟩ := by
  induction n generalizing i s with
  | zero => exact h
  | succ n ih =>
    unfold pollReads at hfits ⊢
    cases hread : p.reads i with
    | report r =>
      simp only [hread] at hfits ⊢
      have hle := (processReport_same s.kbd.toggle r).2
      have hle' := pollReads_dropped p n (i + 1) (processReport s.kbd.toggle r)
      have hsame : s.kbd.toggle.dropped = s.kbd.dropped := rfl
      have hstep := h.report hready r (by omega)
      exact ih hstep ((processReport_same s.kbd.toggle r).1.trans hready) (i + 1)
        (by simp only; omega)
    | short => exact h.not_ready rfl rfl rfl rfl rfl
    | nak => exact h
    | error => exact h.lose p.later

/-- What one poll does. -/
theorem kbdPoll_cases (p : Poll) (k : Kbd) :
    kbdPoll p k = (k, []) ∨
    (Enumerates k p ∧ kbdPoll p k =
      ({ k with ready := true, in_toggle := false, prev_keys := noKeys }, [.enumerated])) ∨
    kbdPoll p k = ({ k with ready := false, in_toggle := false, prev_keys := noKeys,
                            next_enumerate_ms := p.later + RETRY_DELAY_MS }, []) ∨
    (k.ready = true ∧ kbdPoll p k = pollReads p MAX_REPORTS_PER_POLL 0 k) := by
  unfold kbdPoll
  by_cases hinit : k.initialized = true
  · rw [if_neg (not_not.mpr hinit)]
    by_cases hready : k.ready = true
    · rw [if_neg (not_not.mpr hready)]
      exact Or.inr (Or.inr (Or.inr ⟨hready, rfl⟩))
    · rw [if_pos hready]
      by_cases hnow : p.now ≥ k.next_enumerate_ms
      · rw [if_pos hnow]
        cases he : p.enumeration with
        | ready => exact Or.inr (Or.inl ⟨⟨hinit, Bool.not_eq_true _ ▸ hready, hnow, he⟩, rfl⟩)
        | noDevice => exact Or.inr (Or.inr (Or.inl rfl))
        | setAddressFailed => exact Or.inr (Or.inr (Or.inl rfl))
        | setConfigurationFailed => exact Or.inr (Or.inr (Or.inl rfl))
      · rw [if_neg hnow]
        exact Or.inl rfl
  · rw [if_pos hinit]
    exact Or.inl rfl

theorem step_dropped (s : Run) (st : Step) : s.kbd.dropped ≤ (s.step st).kbd.dropped := by
  cases st with
  | poll p =>
    change s.kbd.dropped ≤ (kbdPoll p s.kbd).1.dropped
    rcases kbdPoll_cases p s.kbd with h | ⟨-, h⟩ | h | ⟨-, h⟩
    · rw [h]
    · rw [h]
    · rw [h]
    · rw [h]
      exact pollReads_dropped p _ _ _
  | pop =>
    unfold Run.step
    cases hpop : kbdPop s.kbd with
    | none => exact le_rfl
    | some ek =>
      unfold kbdPop at hpop
      split at hpop
      · cases hpop
      · cases hpop
        exact le_rfl

theorem Inv.step {s : Run} (h : Inv s) (st : Step) (hmeets : Meets s st)
    (hfits : (s.step st).kbd.dropped = s.kbd.dropped) : Inv (s.step st) := by
  cases st with
  | poll p =>
    change (kbdPoll p s.kbd).1.dropped = s.kbd.dropped at hfits
    change Inv ⟨(kbdPoll p s.kbd).1, s.popped, (kbdPoll p s.kbd).2.foldl note s.last⟩
    rcases kbdPoll_cases p s.kbd with hk | ⟨henum, hk⟩ | hk | ⟨hready, hk⟩
    · rw [hk]
      exact h
    · have hnone := hmeets henum
      have hheld : heldOf s.last = heldOf none := by
        rw [heldOf_none]
        exact funext hnone
      rw [hk]
      refine ⟨⟨h.ring.read, h.ring.write⟩, ?_, fun _ => rfl, h.switches, ?_⟩
      · exact h.modifiers.trans (modifiers_eq_zero hnone)
      · exact h.replays.trans hheld
    · rw [hk]
      exact h.not_ready rfl rfl rfl rfl rfl
    · rw [hk] at hfits ⊢
      exact h.reads hready p _ _ hfits
  | pop =>
    unfold Run.step
    cases hpop : kbdPop s.kbd with
    | none => exact h
    | some ek =>
      obtain ⟨e, k⟩ := ek
      have hpend := pending_pop h.ring hpop
      have hsplit : s.popped ++ pending s.kbd = s.popped ++ [e] ++ pending k := by
        rw [hpend, List.append_assoc]
        rfl
      have hk : k = { s.kbd with read_idx := (s.kbd.read_idx + 1) % QUEUE_SIZE } := by
        unfold kbdPop at hpop
        split at hpop
        · cases hpop
        · cases hpop
          rfl
      refine ⟨?_, ?_, ?_, ?_, ?_⟩
      · rw [hk]
        exact ⟨Nat.mod_lt _ (by decide), h.ring.write⟩
      · rw [hk]
        exact h.modifiers
      · rw [hk]
        exact h.keys
      · exact hsplit ▸ h.switches
      · exact hsplit ▸ h.replays

theorem kbdInit_fields (old : Kbd) (e : Enumeration) (now : Word) :
    (kbdInit old e now).read_idx = 0 ∧ (kbdInit old e now).write_idx = 0 ∧
    (kbdInit old e now).prev_modifiers = 0 ∧ (kbdInit old e now).prev_keys = noKeys ∧
    (kbdInit old e now).dropped = 0 := by
  cases e <;> exact ⟨rfl, rfl, rfl, rfl, rfl⟩

theorem start_inv (old : Kbd) (e : Enumeration) (now : Word) : Inv (start old e now) := by
  obtain ⟨hread, hwrite, hmods, hkeys, -⟩ := kbdInit_fields old e now
  have hpend : [] ++ pending (kbdInit old e now) = [] := by
    rw [pending, hread, hwrite]
    rfl
  refine ⟨⟨?_, ?_⟩, hmods, fun _ => hkeys, ?_, ?_⟩
  · rw [start, hread]
    decide
  · rw [start, hwrite]
    decide
  · rw [start, hpend]
    trivial
  · rw [start, hpend, heldOf_none]
    rfl

theorem steps_dropped (s : Run) (steps : List Step) :
    s.kbd.dropped ≤ (s.steps steps).kbd.dropped := by
  induction steps generalizing s with
  | nil => exact le_rfl
  | cons st steps ih => exact le_trans (step_dropped s st) (ih (s.step st))

/-- A run that meets the condition keeps the invariant. -/
theorem Inv.steps {s : Run} (h : Inv s) (steps : List Step) (hmeets : MeetsAll s steps)
    (hfits : (s.steps steps).kbd.dropped = s.kbd.dropped) : Inv (s.steps steps) := by
  induction steps generalizing s with
  | nil => exact h
  | cons st steps ih =>
    have hle := step_dropped s st
    have hle' := steps_dropped (s.step st) steps
    have hcons : s.steps (st :: steps) = (s.step st).steps steps := rfl
    rw [hcons] at hfits ⊢
    exact ih (h.step st hmeets.1 (by omega)) hmeets.2 (by omega)

theorem MeetsAll.of_isPrefix {s : Run} {pre steps : List Step} (hpre : pre <+: steps)
    (h : MeetsAll s steps) : MeetsAll s pre := by
  induction pre generalizing s steps with
  | nil => trivial
  | cons st pre ih =>
    obtain ⟨rest, rfl⟩ := hpre
    exact ⟨h.1, ih ⟨rest, rfl⟩ h.2⟩

/-- An enumeration leaves the events alone and starts without a report. -/
theorem step_enumerates {s : Run} {p : Poll} (h : Enumerates s.kbd p) :
    (s.step (.poll p)).popped ++ pending (s.step (.poll p)).kbd = s.popped ++ pending s.kbd ∧
      (s.step (.poll p)).last = none := by
  obtain ⟨hinit, hready, hnow, he⟩ := h
  have hk : kbdPoll p s.kbd =
      ({ s.kbd with ready := true, in_toggle := false, prev_keys := noKeys }, [.enumerated]) := by
    unfold kbdPoll
    rw [if_neg (not_not.mpr hinit), if_pos (by rw [hready]; decide), if_pos hnow, he]
    rfl
  change s.popped ++ pending (kbdPoll p s.kbd).1 = _ ∧
    (kbdPoll p s.kbd).2.foldl note s.last = none
  rw [hk]
  exact ⟨rfl, rfl⟩

theorem meetsAll_of_consistent (s : Run) (steps : List Step)
    (h : ∀ pre, pre <+: steps → Consistent (s.steps pre)) : MeetsAll s steps := by
  induction steps generalizing s with
  | nil => trivial
  | cons st steps ih =>
    refine ⟨?_, ih (s.step st) (fun pre hpre => h (st :: pre) (List.prefix_cons_inj st |>.mpr hpre))⟩
    cases st with
    | poll p =>
      intro henum u
      obtain ⟨hevents, hlast⟩ := step_enumerates henum
      have hbefore := (h [] List.nil_prefix).1 u
      have hafter := (h [.poll p] ⟨steps, rfl⟩).1 u
      have hone : s.steps [.poll p] = s.step (.poll p) := rfl
      rw [hone, hevents, hlast, heldOf_none] at hafter
      exact hbefore.symm.trans hafter
    | pop => trivial

/-- From `ch374_kbd_init` on, with no event overwritten: every state of a run is consistent
exactly when nothing is held at any enumeration. -/
theorem kbd_consistent_iff (old : Kbd) (e : Enumeration) (now : Word) (steps : List Step)
    (hfits : ((start old e now).steps steps).kbd.dropped = 0) :
    (∀ pre, pre <+: steps → Consistent ((start old e now).steps pre)) ↔
      MeetsAll (start old e now) steps := by
  refine ⟨meetsAll_of_consistent _ steps, ?_⟩
  intro hmeets pre hpre
  refine ((start_inv old e now).steps pre (hmeets.of_isPrefix hpre) ?_).consistent
  obtain ⟨rest, rfl⟩ := hpre
  have happend : (start old e now).steps (pre ++ rest) =
      ((start old e now).steps pre).steps rest := List.foldl_append
  have hle := steps_dropped ((start old e now).steps pre) rest
  have hzero := (kbdInit_fields old e now).2.2.2.2
  have hstart : (start old e now).kbd.dropped = 0 := hzero
  rw [happend] at hfits
  omega

def resetKbd : Kbd := ⟨fun _ => 0, 0, 0, noKeys, 0, false, 0, false, false, 0⟩

def freeReport : Report := ⟨0, noKeys, rfl, by decide, by decide⟩

def keyReport : Report := ⟨0, [4, 0, 0, 0, 0, 0], rfl, by decide, by decide⟩

def pollOf (now : Word) (reads : List ReadResult) : Poll :=
  ⟨now, now, .ready, fun i => reads.getD i .nak⟩

def releasedRun : List Step :=
  [.poll (pollOf 10 [.report keyReport]), .pop, .poll (pollOf 20 [.report freeReport, .error]),
   .poll (pollOf 2000 [])]

theorem kbd_released_consistent :
    ((start resetKbd .ready 0).steps releasedRun).kbd.dropped = 0 ∧
      ∀ pre, pre <+: releasedRun → Consistent ((start resetKbd .ready 0).steps pre) := by
  have hfits : ((start resetKbd .ready 0).steps releasedRun).kbd.dropped = 0 := by decide
  refine ⟨hfits, (kbd_consistent_iff resetKbd .ready 0 releasedRun hfits).mpr ?_⟩
  refine ⟨fun h => absurd h.2.1 (by decide), trivial, fun h => absurd h.2.1 (by decide), ?_, trivial⟩
  exact fun _ u => congrFun heldOf_none u

/-- The key is down when the device is lost, and stays down. -/
theorem kbd_key_stays_down :
    ¬ ∀ (old : Kbd) (e : Enumeration) (now : Word) (steps : List Step),
      ((start old e now).steps steps).kbd.dropped = 0 →
      ∀ pre, pre <+: steps → Consistent ((start old e now).steps pre) := by
  intro h
  have hall := h resetKbd .ready 0 [.poll (pollOf 10 [.report keyReport, .error]), .pop,
    .poll (pollOf 2000 [])] (by decide) _ List.prefix_rfl
  exact absurd (hall.1 4) (by decide)

end AipcOs.Ch374
