import AipcOs.RspTarget
import AipcOs.RspTransfer

/-! Where the continue packets resume the target. -/
namespace AipcOs.Rsp
open ByteMemory HexText Step StepDecode

/-- The well-formed continue packets. Signals and addresses are digit strings; `rest` is what
follows the first action of a vCont. -/
inductive ContinuePacket where
  | plain
  | addressed (addr : List Byte)
  | signal (sig : List Byte)
  | signalAddressed (sig addr : List Byte)
  | vcont (rest : List Byte)
  | vcontSignal (sig rest : List Byte)

namespace ContinuePacket

def WellFormed : ContinuePacket → Prop
  | plain | vcont _ => True
  | addressed ds | signal ds | vcontSignal ds _ => ds ≠ [] ∧ Digits ds
  | signalAddressed sig addr => (sig ≠ [] ∧ Digits sig) ∧ (addr ≠ [] ∧ Digits addr)

def text : ContinuePacket → List Byte
  | plain => [0x63]
  | addressed addr => 0x63 :: addr
  | signal sig => 0x43 :: sig
  | signalAddressed sig addr => 0x43 :: (sig ++ 0x3B :: addr)
  | vcont rest => ascii "vCont;" ++ 0x63 :: rest
  | vcontSignal sig rest => ascii "vCont;" ++ 0x43 :: (sig ++ rest)

def address : ContinuePacket → Option Word
  | addressed addr | signalAddressed _ addr => some (BitVec.ofNat 32 (numeral addr))
  | _ => none

/-- The signal of a C packet, read as an address, is where the target shall resume anyway. -/
def SignalHarmless (pc : Word) : ContinuePacket → Prop
  | signal sig => BitVec.ofNat 32 (numeral sig) = pc
  | signalAddressed sig addr => BitVec.ofNat 32 (numeral sig) = BitVec.ofNat 32 (numeral addr)
  | _ => True

def handed : ContinuePacket → List Byte
  | plain | vcont _ | vcontSignal _ _ => []
  | addressed ds | signal ds => ds
  | signalAddressed sig addr => sig ++ 0x3B :: addr

end ContinuePacket

/-- The target runs from `pc` on in ARM state, with every other register as g_regs had it. -/
def ResumesAt (M : Machine) (pc : Word) (s : Stub) (r : Exit × Stub) : Prop :=
  r.1 = .resumed ∧ ∃ c, M.rspResume r.2.regs r.2.mem = .state .arm c ∧ c.pc = pc ∧
    c.r = (core s.regs none s.mem).r ∧ c.cpsr = s.regs.cpsr

section resume
variable {M : Machine} {g : ArmRegs} {q pc : Word}

theorem takes_setPc : M.Takes { g with pc := q } pc ↔ M.Takes g pc :=
  ⟨fun h => ⟨h.status, h.stack, h.target, h.bus, h.code, h.block⟩,
    fun h => ⟨h.status, h.stack, h.target, h.bus, h.code, h.block⟩⟩

/-- Which word the target finds below its stack. -/
theorem spill_setPc (m : Mem) (hsp : Aligned g.sp) :
    wordAt (M.spill { g with pc := q } m) (g.sp - 4) =
      if M.access (g.sp - 4) = .ram then q else wordAt m (g.sp - 4) := by
  split
  · rename_i h
    exact Machine.spill_ram (g := { g with pc := q }) m hsp h
  · rename_i h
    rw [Machine.spill_fixed (g := { g with pc := q }) m hsp h]

end resume

/-- resume with the pc that it stores in g_regs. -/
theorem resume_iff (M : Machine) (pc q : Word) (p : List Byte) (s : Stub)
    (hq : (resume p s).2.regs = { s.regs with pc := q }) :
    ResumesAt M pc s (resume p s) ↔ M.Takes s.regs pc ∧
      if M.access (s.regs.sp - 4) = .ram then q = pc else wordAt s.mem (s.regs.sp - 4) = pc := by
  have hmem : (resume p s).2.mem = s.mem := by
    unfold resume
    split <;> rfl
  have hres : ResumesAt M pc s (resume p s) ↔ M.Resumes { s.regs with pc := q } s.mem pc := by
    rw [ResumesAt, hq, hmem]
    exact and_iff_right rfl
  rw [hres, Machine.resumes_iff, takes_setPc]
  refine and_congr_right fun h => ?_
  rw [spill_setPc s.mem h.stack]
  split <;> rfl

theorem resume_nil (s : Stub) : (resume [] s).2.regs = { s.regs with pc := s.regs.pc } := rfl

theorem resume_text (p : List Byte) (s : Stub) (hp : p ≠ []) :
    (resume p s).2.regs = { s.regs with pc := (parseHex p).1 } := by
  simp only [resume, if_neg hp]

/-- Both spellings of continue end in resume. -/
theorem dispatch_continue (p : ContinuePacket) (s : Stub) :
    dispatch p.text s = resume p.handed (traceCmd p.text s) := by
  cases p with
  | plain => rfl
  | addressed addr => rfl
  | signal sig => rfl
  | signalAddressed sig addr => rfl
  | vcont rest => simp [ContinuePacket.text, ascii_vCont, dispatch, vcont, prefixOf, vcontAction,
      ContinuePacket.handed]
  | vcontSignal sig rest => simp [ContinuePacket.text, ascii_vCont, dispatch, vcont, prefixOf,
      vcontAction, ContinuePacket.handed]

theorem resumesAt_traceCmd (M : Machine) (pc : Word) (cmd : List Byte) (s : Stub)
    (r : Exit × Stub) : ResumesAt M pc (traceCmd cmd s) r ↔ ResumesAt M pc s r := by
  rw [ResumesAt, traceCmd_regs, traceCmd_mem, ResumesAt]

theorem parseHex_all (ds : List Byte) (hd : Digits ds) :
    (parseHex ds).1 = BitVec.ofNat 32 (numeral ds) := by
  have h := parseHex_digits ds [] hd (by simp [Stops])
  rw [List.append_nil] at h
  rw [h]

theorem parseHex_semicolon (ds rest : List Byte) (hd : Digits ds) :
    (parseHex (ds ++ 0x3B :: rest)).1 = BitVec.ofNat 32 (numeral ds) := by
  have hs : Stops (0x3B :: rest) := by
    intro c hc
    cases hc
    decide
  rw [parseHex_digits ds _ hd hs]

def ContinuePacket.resumed (pc : Word) : ContinuePacket → Word
  | addressed ds | signal ds | signalAddressed ds _ => BitVec.ofNat 32 (numeral ds)
  | _ => pc

theorem resumed_harmless (p : ContinuePacket) (pc : Word) :
    p.resumed pc = p.address.getD pc ↔ p.SignalHarmless pc := by
  cases p with
  | plain => exact iff_of_true rfl trivial
  | addressed addr => exact iff_of_true rfl trivial
  | signal sig => rfl
  | signalAddressed sig addr => rfl
  | vcont rest => exact iff_of_true rfl trivial
  | vcontSignal sig rest => exact iff_of_true rfl trivial

theorem handed_regs (p : ContinuePacket) (s : Stub) (hp : p.WellFormed) :
    (resume p.handed s).2.regs = { s.regs with pc := p.resumed s.regs.pc } := by
  cases p with
  | plain => exact resume_nil s
  | addressed addr => rw [ContinuePacket.handed, resume_text _ _ hp.1, parseHex_all addr hp.2]; rfl
  | signal sig => rw [ContinuePacket.handed, resume_text _ _ hp.1, parseHex_all sig hp.2]; rfl
  | signalAddressed sig addr =>
    have hne : sig ++ 0x3B :: addr ≠ [] := by simp
    rw [ContinuePacket.handed, resume_text _ _ hne, parseHex_semicolon sig addr hp.1.2]
    rfl
  | vcont rest => exact resume_nil s
  | vcontSignal sig rest => exact resume_nil s

/-- Where a continue packet goes, for every pc that is asked for. -/
theorem dispatch_resumesAt (M : Machine) (pc : Word) (p : ContinuePacket) (s : Stub)
    (hp : p.WellFormed) :
    ResumesAt M pc s (dispatch p.text s) ↔ M.Takes s.regs pc ∧
      if M.access (s.regs.sp - 4) = .ram then p.resumed s.regs.pc = pc
      else wordAt s.mem (s.regs.sp - 4) = pc := by
  have hregs := handed_regs p (traceCmd p.text s) hp
  rw [dispatch_continue, ← resumesAt_traceCmd M pc p.text, resume_iff M pc _ p.handed _ hregs,
    traceCmd_regs, traceCmd_mem]

/-- A continue packet resumes at its address, or at the current pc when it has none, exactly when
the target's registers and bus take it there and it is no C packet, or its signal happens to spell
that very address. Where the word below the stack is no memory, that word decides. -/
theorem dispatch_resumes_iff (M : Machine) (p : ContinuePacket) (s : Stub) (hp : p.WellFormed) :
    ResumesAt M (p.address.getD s.regs.pc) s (dispatch p.text s) ↔
      M.Takes s.regs (p.address.getD s.regs.pc) ∧
        if M.access (s.regs.sp - 4) = .ram then p.SignalHarmless s.regs.pc
        else wordAt s.mem (s.regs.sp - 4) = p.address.getD s.regs.pc := by
  rw [dispatch_resumesAt M _ p s hp]
  refine and_congr_right fun _ => ?_
  split
  · exact resumed_harmless p s.regs.pc
  · rfl

theorem stacked_takes {pc : Word} (hpc : Aligned pc) : ddrMachine.Takes stackedStub.regs pc where
  status := by decide
  stack := by decide
  target := hpc
  bus := by decide
  code := by decide
  block := by
    have hne : ∀ i : Fin 13, ddrMachine.g_regs + BitVec.ofNat 32 (4 * i.val) ≠ 0x30000FFC := by decide
    exact fun i hi => absurd hi (hne i)

theorem dispatch_resumes_c :
    ResumesAt ddrMachine 0x30002000 stackedStub (dispatch (ascii "c30002000") stackedStub) :=
  (dispatch_resumes_iff ddrMachine (.addressed (ascii "30002000")) stackedStub
    (by constructor <;> decide)).2 ⟨stacked_takes (by decide), trivial⟩

/-- `C05` resumes at address 5. -/
theorem dispatch_signal_as_address :
    ¬ ∀ (p : ContinuePacket) (s : Stub), p.WellFormed →
      ResumesAt ddrMachine (p.address.getD s.regs.pc) s (dispatch p.text s) := by
  intro h
  have hp : (ContinuePacket.signal (ascii "05")).WellFormed := by constructor <;> decide
  have hres := ((dispatch_resumesAt ddrMachine _ _ stackedStub hp).1 (h _ _ hp)).2
  exact absurd hres (by decide)

end AipcOs.Rsp
