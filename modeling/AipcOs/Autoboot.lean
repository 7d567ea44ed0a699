import AipcOs.Histories
import AipcOs.Launch

/-! aipc-boot/ui.c: the loop of ui_run, as far as it decides about autoboot. What a key, the card or
a boot does elsewhere in the menu is an input of the run. -/
namespace AipcOs.Autoboot
open ByteMemory Histories HexText Ini Storage Settings Launch LvglText
open Entries (entriesLoad)

def KEY_CLICK_MS : Word := 500
def KEY_OFF_MS : Word := 3000

inductive AutobootState where
  | off | waitKbd | run
  deriving DecidableEq

/-- What happens in a run: an event of kbd_pop, the level that power_key_tick reads, a card change,
the readings of autoboot_tick, and a call of launch_boot with settings_timeout at that time. -/
inductive Event where
  | popped (pressed : Bool)
  | power (key : Bool)
  | cardChanged
  | tick (ready : Bool) (now : Word)
  | booted (auto : Bool) (item : Nat) (timeout : Word)
  deriving DecidableEq

section Menu
variable [Lvgl]

structure Ui where
  autoboot : AutobootState
  autoboot_start_ms : Word
  autoboot_ms : Word
  power_armed : Bool
  down : Bool
  shown : Bool
  down_ms : Word
  settings : Table
  items : List LaunchItem
  ended : Bool
  log : List Event

def Ui.emit (s : Ui) (e : Event) : Ui := { s with log := s.log ++ [e] }

def Ui.on (s : Ui) (f : Ui → Ui) : Ui := if s.ended then s else f s

def autobootCancel (s : Ui) : Ui := if s.autoboot = .off then s else { s with autoboot := .off }

def reload (startup : Bool) (card : Option Card) (s : Ui) : Ui :=
  match card with
  | none => { s with items := launchReload [] }
  | some d =>
    let loaded := entriesLoad d
    let s := { s with settings := settingsLoad d, items := launchReload loaded.entries }
    if loaded.message.isSome then s
    else if startup then { s with autoboot := .waitKbd }
    else s

def uiCardChanged (card : Option Card) (s : Ui) : Ui :=
  reload false card (autobootCancel (s.emit .cardChanged))

inductive BootOutcome where
  | entered
  | returned
  /-- wince_prepare failed, and card_init may have found another card. -/
  | failed (changed : Option (Option Card))

/-- What launch_boot meets: the events that wait_power_key takes, and how it ends. -/
structure Boot where
  pops : List Bool
  outcome : BootOutcome

def bootRest (b : Boot) (s : Ui) : Ui :=
  let s := b.pops.foldl (fun s pressed => s.emit (.popped pressed)) s
  match b.outcome with
  | .entered => { s with ended := true }
  | .returned => s
  | .failed none => { s with power_armed := false }
  | .failed (some card) => { uiCardChanged card s with power_armed := false }

def launchBoot (auto : Bool) (item : Nat) (b : Boot) (s : Ui) : Ui :=
  bootRest b (s.emit (.booted auto item (settingsTimeout s.settings)))

def cardTick (changed : Option (Option Card)) (s : Ui) : Ui :=
  match changed with
  | none => s
  | some card => uiCardChanged card s

/-- What the handler of a key does. `resume` is the ui_resume of payloads_enter behind a payload, with
the card if card_init has found another one. -/
inductive Action where
  | set (x : Setter)
  | boot (item : Nat) (b : Boot)
  | resume (changed : Option (Option Card))
  | powerOff

def Action.run (s : Ui) : Action → Ui
  | .set x => { s with settings := x.run s.settings }
  | .boot item b => launchBoot false item b s
  | .resume changed => cardTick changed s
  | .powerOff => { s with ended := true }

structure Popped where
  pressed : Bool
  actions : List Action

def popOne (s : Ui) (p : Popped) : Ui :=
  let s := s.emit (.popped p.pressed)
  if p.pressed then p.actions.foldl (fun s a => s.on fun s => a.run s) (autobootCancel s) else s

def pollKeyboard (pops : List Popped) (s : Ui) : Ui :=
  pops.foldl (fun s p => s.on fun s => popOne s p) s

def powerKeyTick (key : Bool) (now : Word) (s : Ui) : Ui :=
  let s := s.emit (.power key)
  if s.power_armed = false then { s with power_armed := !key }
  else if key = false then { s with down := false, shown := false }
  else if s.down = false then autobootCancel { s with down := true, down_ms := now }
  else if KEY_OFF_MS ≤ now - s.down_ms then { s with ended := true }
  else if KEY_CLICK_MS ≤ now - s.down_ms then { s with shown := true }
  else s

def autobootStart (ready : Bool) (now : Word) (s : Ui) : Ui :=
  if s.autoboot = .waitKbd ∧ ready = true then
    { s with
      autoboot := .run
      autoboot_start_ms := now
      autoboot_ms := settingsTimeout s.settings * 1000 }
  else s

def autobootTick (ready : Bool) (now : Word) (b : Boot) (s : Ui) : Ui :=
  let s := autobootStart ready now (s.emit (.tick ready now))
  if s.autoboot ≠ .run then s
  else if s.autoboot_ms ≤ now - s.autoboot_start_ms then
    launchBoot true (launchDefault s.items s.settings) b (autobootCancel s)
  else s

structure Iteration where
  pops : List Popped
  key : Bool
  keyNow : Word
  changed : Option (Option Card)
  ready : Bool
  now : Word
  boot : Boot

def iterate (s : Ui) (it : Iteration) : Ui :=
  let s := pollKeyboard it.pops s
  let s := s.on (powerKeyTick it.key it.keyNow)
  let s := s.on (cardTick it.changed)
  s.on (autobootTick it.ready it.now it.boot)

def start (card : Option Card) : Ui :=
  reload true card ⟨.off, 0, 0, false, false, false, 0, [], [], false, []⟩

def uiRun (card : Option Card) (its : List Iteration) : Ui := its.foldl iterate (start card)

def Event.isAuto : Event → Bool
  | .booted auto _ _ => auto
  | _ => false

def Startup (card : Option Card) : Prop := ∃ d, card = some d ∧ (entriesLoad d).message = none

structure Untouched (log : List Event) : Prop where
  keys : .popped true ∉ log
  card : .cardChanged ∉ log
  power : ¬[Event.power false, Event.power true].Sublist log

structure Allowed (card : Option Card) (timeout : Word) (before : List Event) : Prop where
  startup : Startup card
  untouched : Untouched before
  waited : ∃ t ready now, .tick true t ∈ before ∧ before.getLast? = some (.tick ready now) ∧
    timeout.toNat * 1000 ≤ (now - t).toNat

structure Respected (card : Option Card) (log : List Event) : Prop where
  once : log.countP Event.isAuto ≤ 1
  allowed : ∀ before after item timeout, log = before ++ .booted true item timeout :: after →
    Allowed card timeout before

variable {card : Option Card} {s : Ui} {log : List Event} {e : Event}

theorem Respected.append (h : Respected card log) (he : e.isAuto = false) :
    Respected card (log ++ [e]) := by
  constructor
  · rw [List.countP_append, List.countP_singleton, he]
    exact h.once
  · intro before after item timeout heq
    obtain ⟨-, rfl⟩ | ⟨rest, hold⟩ := entry_of_snoc heq
    · cases he
    · exact h.allowed before rest item timeout hold

/-- The first call. -/
theorem Respected.boot {item : Nat} {timeout : Word} (hnone : ∀ e ∈ log, e.isAuto = false)
    (hallowed : Allowed card timeout log) :
    Respected card (log ++ [.booted true item timeout]) := by
  have hzero : log.countP Event.isAuto = 0 :=
    List.countP_eq_zero.mpr fun e he => by rw [hnone e he]; decide
  constructor
  · rw [List.countP_append, hzero, List.countP_singleton]
    exact Nat.le_refl 1
  · intro before after item' timeout' heq
    obtain ⟨rfl, hsame⟩ | ⟨rest, hold⟩ := entry_of_snoc heq
    · cases hsame
      exact hallowed
    · have hauto := hnone (.booted true item' timeout') (by rw [hold]; simp)
      cases hauto

omit [Lvgl] in
theorem Untouched.append (h : Untouched log) (hkey : e ≠ .popped true) (hcard : e ≠ .cardChanged)
    (hpower : e = .power true → .power false ∉ log) : Untouched (log ++ [e]) := by
  refine ⟨?_, ?_, ?_⟩
  · simp [h.keys, hkey.symm]
  · simp [h.card, hcard.symm]
  · intro hsub
    obtain ⟨front, back, hsplit, hfront, hback⟩ := List.sublist_append_iff.mp hsub
    obtain rfl | rfl := List.sublist_singleton.mp hback
    · rw [List.append_nil] at hsplit
      exact h.power (hsplit ▸ hfront)
    · have hpair : [Event.power false] ++ [Event.power true] = front ++ [e] := hsplit
      have hlast : Event.power true = e := by simpa using List.append_inj_right' hpair rfl
      have hhead := List.append_inj_left' hpair rfl
      rw [← hhead, List.singleton_sublist] at hfront
      exact hpower hlast.symm hfront

structure Off (card : Option Card) (s : Ui) : Prop where
  off : s.autoboot = .off
  respected : Respected card s.log

theorem Off.emit (h : Off card s) (he : e.isAuto = false) : Off card (s.emit e) :=
  ⟨h.off, h.respected.append he⟩

theorem Off.on (h : Off card s) {f : Ui → Ui} (hf : Off card s → Off card (f s)) :
    Off card (s.on f) := by
  rw [Ui.on]
  split
  · exact h
  · exact hf h

theorem autobootCancel_off (h : Respected card s.log) : Off card (autobootCancel s) := by
  rw [autobootCancel]
  split
  · rename_i hoff
    exact ⟨hoff, h⟩
  · exact ⟨rfl, h⟩

theorem reload_off (h : Off card s) (found : Option Card) : Off card (reload false found s) := by
  cases found with
  | none => exact ⟨h.off, h.respected⟩
  | some d =>
    rw [reload]
    split
    · exact ⟨h.off, h.respected⟩
    · exact ⟨h.off, h.respected⟩

theorem uiCardChanged_off (h : Respected card s.log) (found : Option Card) :
    Off card (uiCardChanged found s) :=
  reload_off (autobootCancel_off (h.append rfl)) found

theorem pops_off (h : Off card s) (pops : List Bool) :
    Off card (pops.foldl (fun s pressed => s.emit (.popped pressed)) s) := by
  induction pops generalizing s with
  | nil => exact h
  | cons pressed pops ih => exact ih (h.emit rfl)

theorem bootRest_off (h : Off card s) (b : Boot) : Off card (bootRest b s) := by
  have hpops := pops_off h b.pops
  rw [bootRest]
  cases b.outcome with
  | entered => exact ⟨hpops.off, hpops.respected⟩
  | returned => exact hpops
  | failed changed =>
    cases changed with
    | none => exact ⟨hpops.off, hpops.respected⟩
    | some found =>
      have hchanged := uiCardChanged_off hpops.respected found
      exact ⟨hchanged.off, hchanged.respected⟩

theorem cardTick_off (h : Off card s) (changed : Option (Option Card)) :
    Off card (cardTick changed s) := by
  cases changed with
  | none => exact h
  | some found => exact uiCardChanged_off h.respected found

theorem Action.run_off (h : Off card s) (a : Action) : Off card (a.run s) := by
  cases a with
  | set x => exact ⟨h.off, h.respected⟩
  | boot item b => exact bootRest_off (h.emit rfl) b
  | resume changed => exact cardTick_off h changed
  | powerOff => exact ⟨h.off, h.respected⟩

theorem actions_off (h : Off card s) (as : List Action) :
    Off card (as.foldl (fun s a => s.on fun s => a.run s) s) := by
  induction as generalizing s with
  | nil => exact h
  | cons a as ih => exact ih (h.on fun hs => Action.run_off hs a)

structure Waiting (card : Option Card) (s : Ui) : Prop where
  startup : Startup card
  untouched : Untouched s.log
  unbooted : ∀ e ∈ s.log, e.isAuto = false
  up : s.down = false
  armed : s.power_armed = true ↔ .power false ∈ s.log
  running : s.autoboot = .run → .tick true s.autoboot_start_ms ∈ s.log ∧
    s.autoboot_ms = settingsTimeout s.settings * 1000

structure Inv (card : Option Card) (s : Ui) : Prop where
  respected : Respected card s.log
  waiting : s.autoboot ≠ .off → Waiting card s

theorem Off.inv (h : Off card s) : Inv card s := ⟨h.respected, fun hne => absurd h.off hne⟩

theorem Inv.off (h : Inv card s) (hoff : s.autoboot = .off) : Off card s := ⟨hoff, h.respected⟩

theorem Inv.on (h : Inv card s) {f : Ui → Ui} (hf : Inv card s → Inv card (f s)) :
    Inv card (s.on f) := by
  rw [Ui.on]
  split
  · exact h
  · exact hf h

theorem Waiting.emit (h : Waiting card s) (he : e.isAuto = false) (hkey : e ≠ .popped true)
    (hcard : e ≠ .cardChanged) (hpower : ∀ key, e ≠ .power key) : Waiting card (s.emit e) where
  startup := h.startup
  untouched := h.untouched.append hkey hcard fun heq => absurd heq (hpower true)
  unbooted := by
    intro x hx
    obtain hx | hx := List.mem_append.mp hx
    · exact h.unbooted x hx
    · rw [List.mem_singleton.mp hx, he]
  up := h.up
  armed := by
    rw [Ui.emit, h.armed, List.mem_append, List.mem_singleton]
    exact ⟨Or.inl, fun hor => hor.resolve_right fun heq => hpower false heq.symm⟩
  running := fun hrun => ⟨List.mem_append_left _ (h.running hrun).1, (h.running hrun).2⟩

theorem Inv.emit (h : Inv card s) (he : e.isAuto = false) (hkey : e ≠ .popped true)
    (hcard : e ≠ .cardChanged) (hpower : ∀ key, e ≠ .power key) : Inv card (s.emit e) :=
  ⟨h.respected.append he, fun hne => (h.waiting hne).emit he hkey hcard hpower⟩

theorem popOne_inv (h : Inv card s) (p : Popped) : Inv card (popOne s p) := by
  rw [popOne]
  cases hpressed : p.pressed with
  | true => exact (actions_off (autobootCancel_off (h.respected.append rfl)) p.actions).inv
  | false => exact h.emit rfl (by simp) (by simp) (by simp)

theorem pollKeyboard_inv (h : Inv card s) (pops : List Popped) :
    Inv card (pollKeyboard pops s) := by
  rw [pollKeyboard]
  induction pops generalizing s with
  | nil => exact h
  | cons p pops ih => exact ih (h.on fun hs => popOne_inv hs p)

theorem powerKeyTick_off (h : Off card s) (key : Bool) (now : Word) :
    Off card (powerKeyTick key now s) := by
  have hemit := h.emit (e := .power key) rfl
  rw [powerKeyTick]
  repeat' split
  · exact ⟨hemit.off, hemit.respected⟩
  · exact ⟨hemit.off, hemit.respected⟩
  · exact autobootCancel_off hemit.respected
  · exact ⟨hemit.off, hemit.respected⟩
  · exact ⟨hemit.off, hemit.respected⟩
  · exact hemit

/-- The key may be seen released at any time; a press after that is noticed. -/
theorem powerKeyTick_inv (h : Inv card s) (key : Bool) (now : Word) :
    Inv card (powerKeyTick key now s) := by
  by_cases hoff : s.autoboot = .off
  · exact (powerKeyTick_off (h.off hoff) key now).inv
  · have hw := h.waiting hoff
    have hrespected : Respected card (s.log ++ [.power key]) := h.respected.append rfl
    have hunbooted : ∀ e ∈ s.log ++ [Event.power key], e.isAuto = false := by
      intro x hx
      obtain hx | hx := List.mem_append.mp hx
      · exact hw.unbooted x hx
      · rw [List.mem_singleton.mp hx]
        rfl
    have hrunning (hrun : s.autoboot = .run) :
        .tick true s.autoboot_start_ms ∈ s.log ++ [Event.power key] ∧
          s.autoboot_ms = settingsTimeout s.settings * 1000 :=
      ⟨List.mem_append_left _ (hw.running hrun).1, (hw.running hrun).2⟩
    rw [powerKeyTick]
    cases harmed : s.power_armed with
    | false =>
      have hnever : Event.power false ∉ s.log := fun hmem => by
        have := hw.armed.mpr hmem
        rw [harmed] at this
        cases this
      have huntouched : Untouched (s.log ++ [.power key]) :=
        hw.untouched.append (by simp) (by simp) fun _ => hnever
      rw [Ui.emit, harmed, if_pos rfl]
      refine ⟨hrespected, fun _ => ⟨hw.startup, huntouched, hunbooted, hw.up, ?_, hrunning⟩⟩
      cases key <;> simp [hnever]
    | true =>
      have hseen : Event.power false ∈ s.log := hw.armed.mp harmed
      rw [Ui.emit, harmed, if_neg (by decide)]
      cases key with
      | false =>
        have huntouched : Untouched (s.log ++ [.power false]) :=
          hw.untouched.append (by simp) (by simp) (by simp)
        rw [if_pos rfl]
        refine ⟨hrespected, fun _ => ⟨hw.startup, huntouched, hunbooted, rfl, ?_, hrunning⟩⟩
        exact ⟨fun _ => List.mem_append_left _ hseen, fun _ => rfl⟩
      | true =>
        rw [if_neg (by decide), if_pos hw.up]
        exact (autobootCancel_off hrespected).inv

theorem cardTick_inv (h : Inv card s) (changed : Option (Option Card)) :
    Inv card (cardTick changed s) := by
  cases changed with
  | none => exact h
  | some found => exact (uiCardChanged_off h.respected found).inv

omit [Lvgl] in
theorem settingsTimeout_le (t : Table) : (settingsTimeout t).toNat ≤ 100000 := by
  rw [settingsTimeout, getUint]
  split
  · decide
  · split
    · decide
    · split
      · decide
      · split
        · rename_i hrange
          exact hrange.2
        · decide

omit [Lvgl] in
/-- The time in milliseconds fits a word. -/
theorem timeoutMs (t : Table) : (settingsTimeout t * 1000).toNat = (settingsTimeout t).toNat * 1000 := by
  have hle := settingsTimeout_le t
  rw [BitVec.toNat_mul]
  exact Nat.mod_eq_of_lt (by change _ * 1000 < _; omega)

omit [Lvgl] in
theorem autobootStart_off (hoff : s.autoboot = .off) (ready : Bool) (now : Word) :
    autobootStart ready now s = s := by
  rw [autobootStart, if_neg fun h => by rw [hoff] at h; cases h.1]

/-- Behind its own tick, autoboot still waits. -/
theorem autobootStart_waiting (h : Waiting card s) (ready : Bool) (now : Word)
    (htick : .tick ready now ∈ s.log) : Waiting card (autobootStart ready now s) := by
  rw [autobootStart]
  split
  · rename_i hready
    rw [hready.2] at htick
    exact ⟨h.startup, h.untouched, h.unbooted, h.up, h.armed, fun _ => ⟨htick, rfl⟩⟩
  · exact h

omit [Lvgl] in
theorem autobootStart_log (ready : Bool) (now : Word) (s : Ui) :
    (autobootStart ready now s).log = s.log := by
  rw [autobootStart]
  split <;> rfl

/-- The time has run out. -/
theorem Waiting.allowed (h : Waiting card s) (hrun : s.autoboot = .run) {ready : Bool} {now : Word}
    (hlast : s.log.getLast? = some (.tick ready now))
    (hdue : s.autoboot_ms ≤ now - s.autoboot_start_ms) :
    Allowed card (settingsTimeout s.settings) s.log := by
  obtain ⟨htick, hms⟩ := h.running hrun
  rw [hms] at hdue
  have hle : (settingsTimeout s.settings * 1000).toNat ≤ (now - s.autoboot_start_ms).toNat := hdue
  rw [timeoutMs] at hle
  exact ⟨h.startup, h.untouched, _, _, _, htick, hlast, hle⟩

theorem launchBoot_off (hoff : s.autoboot = .off) (hunbooted : ∀ e ∈ s.log, e.isAuto = false)
    (hallowed : Allowed card (settingsTimeout s.settings) s.log) (item : Nat) (b : Boot) :
    Off card (launchBoot true item b s) := by
  have hbooted : Off card (s.emit (.booted true item (settingsTimeout s.settings))) :=
    ⟨hoff, Respected.boot hunbooted hallowed⟩
  exact bootRest_off hbooted b

theorem autobootTick_inv (h : Inv card s) (ready : Bool) (now : Word) (b : Boot) :
    Inv card (autobootTick ready now b s) := by
  have hemit : Inv card (s.emit (.tick ready now)) := h.emit rfl (by simp) (by simp) (by simp)
  have hmem : Event.tick ready now ∈ (s.emit (.tick ready now)).log :=
    List.mem_append_right _ (List.mem_singleton_self _)
  have hlast : (autobootStart ready now (s.emit (.tick ready now))).log.getLast? =
      some (.tick ready now) := by
    rw [autobootStart_log]
    exact List.getLast?_concat
  rw [autobootTick]
  by_cases hoff : s.autoboot = .off
  · have hsame := autobootStart_off (s := s.emit (.tick ready now)) hoff ready now
    have hnot : (s.emit (.tick ready now)).autoboot ≠ .run := by
      rw [Ui.emit, hoff]
      decide
    simp only [hsame]
    rw [if_pos hnot]
    exact hemit
  · have hw := autobootStart_waiting (hemit.waiting hoff) ready now hmem
    have hrespected : Respected card (autobootStart ready now (s.emit (.tick ready now))).log := by
      rw [autobootStart_log]
      exact hemit.respected
    generalize autobootStart ready now (s.emit (.tick ready now)) = s' at hw hrespected hlast ⊢
    split
    · exact ⟨hrespected, fun _ => hw⟩
    · rename_i hrun
      rw [not_not] at hrun
      split
      · rename_i hdue
        have hcancel : autobootCancel s' = { s' with autoboot := .off } := by
          rw [autobootCancel, if_neg (by rw [hrun]; decide)]
        rw [hcancel]
        exact (launchBoot_off (s := { s' with autoboot := .off }) rfl hw.unbooted
          (hw.allowed hrun hlast hdue) _ b).inv
      · exact ⟨hrespected, fun _ => hw⟩

theorem iterate_inv (h : Inv card s) (it : Iteration) : Inv card (iterate s it) := by
  have hkeys := pollKeyboard_inv h it.pops
  have hpower := hkeys.on fun hs => powerKeyTick_inv hs it.key it.keyNow
  have hcard := hpower.on fun hs => cardTick_inv hs it.changed
  exact hcard.on fun hs => autobootTick_inv hs it.ready it.now it.boot

theorem start_inv (card : Option Card) : Inv card (start card) := by
  have hnone : Respected card [] := by
    refine ⟨Nat.zero_le _, fun before after item timeout heq => ?_⟩
    exact absurd heq.symm (List.append_ne_nil_of_right_ne_nil _ (List.cons_ne_nil _ _))
  have huntouched : Untouched [] :=
    ⟨List.not_mem_nil, List.not_mem_nil, fun hsub => by cases hsub⟩
  cases card with
  | none => exact ⟨hnone, fun hne => absurd rfl hne⟩
  | some d =>
    rw [start, reload]
    split
    · exact ⟨hnone, fun hne => absurd rfl hne⟩
    · rename_i hmessage
      rw [if_pos rfl]
      refine ⟨hnone, fun _ => ⟨⟨d, rfl, Option.not_isSome_iff_eq_none.mp hmessage⟩, huntouched, ?_,
        rfl, ?_, fun hrun => by cases hrun⟩⟩
      · exact fun e he => absurd he List.not_mem_nil
      · exact ⟨fun h => (by cases h), fun h => absurd h List.not_mem_nil⟩

/-- In every run, autoboot boots once at most, after its time, and not once the user has acted. -/
theorem autoboot_respects (card : Option Card) (its : List Iteration) :
    Respected card (uiRun card its).log := by
  have hinv : Inv card (uiRun card its) := by
    rw [uiRun]
    induction its using List.reverseRecOn with
    | nil => exact start_inv card
    | append_singleton its it ih =>
      rw [List.foldl_append]
      exact iterate_inv ih it
  exact hinv.respected

end Menu

def quiet (now : Word) : Iteration := ⟨[], false, now, none, true, now, ⟨[], .entered⟩⟩

section Builtin
open scoped LvglText.Builtin

example : (uiRun (some fun _ => none) [quiet 0, quiet 14999, quiet 15000]).log.getLast? =
    some (.booted true 0 15) := by decide

example : (uiRun (some fun _ => none)
    [quiet 0, { quiet 15000 with pops := [⟨true, []⟩] }]).log.getLast? =
      some (.tick true 15000) := by decide

end Builtin

end AipcOs.Autoboot
