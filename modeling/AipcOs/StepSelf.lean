import AipcOs.StepCorrect
import AipcOs.RspDispatch

/-! The immediate stop reply of do_step: when an instruction whose next pc is its own address
changes nothing else, and what the reply loses when it does. -/
namespace AipcOs.StepSelf
open ByteMemory WordBits Armv5 Step StepDecode StepCorrect Rsp

/-- What the S bit of a write of r15 must find: the CPSR saved as it is, J clear. -/
def KeepsStatus (c : Core) (s : Bool) : Prop :=
  s = true → c.spsr = some c.cpsr ∧ c.cpsr.getLsbD 24 = false

/-- The instruction, known to branch to its own address, writes nothing else. -/
def Keeps (c : Core) : Insn → Prop
  | .branch link _ => link = true → c.lr = c.pc + 4
  | .branchExchange link sbo rm =>
    sbo = BitVec.allOnes 12 ∧ ¬ (link = true ∧ rm = 15) ∧ c.reg rm = c.pc ∧
      (link = true → c.lr = c.pc + 4)
  | .dataProcessing op s rn rd src =>
    (∀ rm rs t, src ≠ .shiftReg rm rs t) ∧ op.isTest = false ∧ rd = 15 ∧
      op.result (c.reg rn) (c.shifter src) c.flagC = c.pc ∧ KeepsStatus c s
  | .loadStore load byte pre up wb rn rd off =>
    load = true ∧ rd = 15 ∧ byte = false ∧ (pre = false → wb = false) ∧
      (rn = 15 → pre = true ∧ wb = false) ∧ off.usesPc = false ∧
      c.address pre up rn off &&& 3 = 0 ∧ wordAt c.mem (c.address pre up rn off) = c.pc ∧
      (pre = false ∨ wb = true → c.offset off = 0)
  | .block load pre up s wb rn list =>
    load = true ∧ list.getLsbD 15 = true ∧ rn ≠ 15 ∧ wb = false ∧
      wordAt c.mem (c.blockTop pre up rn list &&& ~~~3) = c.pc ∧
      (∀ i : Fin 15, list.getLsbD i.val = true →
        wordAt c.mem (c.blockAddress pre up rn list i.val &&& ~~~3) = c.r i) ∧
      KeepsStatus c s
  | _ => False

theorem setReg_eq_iff (c : Core) (i : Fin 15) (v : Word) (n : Reg) (hn : n.toNat = i.val) :
    c.setReg n v = c ↔ v = c.r i := by
  obtain ⟨r, pc, cpsr, spsr, mem⟩ := c
  simp only [Core.setReg, Core.mk.injEq, and_true]
  constructor
  · intro h
    have hi := congrFun h i
    rw [if_pos hn.symm] at hi
    exact hi
  · intro h
    funext j
    by_cases hj : j.val = n.toNat
    · rw [if_pos hj, h, show j = i from Fin.ext (hj.trans hn)]
    · rw [if_neg hj]

theorem linked_eq_iff (c : Core) (link : Bool) :
    c.linked link = c ↔ (link = true → c.lr = c.pc + 4) := by
  cases link with
  | false => simp [Core.linked]
  | true =>
    have h := setReg_eq_iff c 14 (c.pc + 4) 14 rfl
    rw [Core.linked, if_pos rfl, h, Core.lr]
    constructor
    · intro he _
      exact he.symm
    · intro he
      exact (he rfl).symm

theorem writeBack_eq_iff (c : Core) (pre up wb : Bool) (rn : Reg) (off : Offset) (hrn : rn ≠ 15) :
    c.writeBack pre up wb rn off = c ↔ (pre = false ∨ wb = true → c.offset off = 0) := by
  have hlt : rn.toNat < 15 := by
    have := rn.isLt
    have hne : rn.toNat ≠ 15 := fun h => hrn (BitVec.eq_of_toNat_eq h)
    omega
  have hreg : c.reg rn = c.r ⟨rn.toNat, hlt⟩ := dif_pos hlt
  by_cases h : pre = false ∨ wb = true
  · have hb : (!pre || wb) = true := by
      cases pre <;> cases wb <;> simp_all
    rw [Core.writeBack, if_pos hb, setReg_eq_iff c ⟨rn.toNat, hlt⟩ _ rn rfl, ← hreg]
    cases up
    · simp only [Bool.false_eq_true, if_false, h, true_implies]
      bv_omega
    · simp only [if_true, h, true_implies]
      bv_omega
  · have hb : ¬ (!pre || wb) = true := by
      cases pre <;> cases wb <;> simp_all
    rw [Core.writeBack, if_neg hb]
    simp [h]

theorem loadBlock_eq_iff (c : Core) (pre up : Bool) (rn : Reg) (list : BitVec 16) :
    c.loadBlock pre up rn list = c ↔
      ∀ i : Fin 15, list.getLsbD i.val = true →
        wordAt c.mem (c.blockAddress pre up rn list i.val &&& ~~~3) = c.r i := by
  have hr : c.loadBlock pre up rn list = c ↔ (c.loadBlock pre up rn list).r = c.r := by
    obtain ⟨r, pc, cpsr, spsr, mem⟩ := c
    simp [Core.loadBlock]
  rw [hr, funext_iff]
  simp only [Core.loadBlock, ite_eq_right_iff]

theorem listSize_le (list : BitVec 16) : listSize list ≤ 16 :=
  (List.length_filter_le _ _).trans (by simp)

/-- A base moved by the words of the block is another base. -/
theorem blockBack_ne (c d : Core) (up : Bool) (rn : Reg) (list : BitVec 16) (hrn : rn ≠ 15)
    (hl : list.getLsbD 15 = true) (hr : d.reg rn = c.reg rn) :
    d.blockBack up true rn list ≠ c := by
  have hlt : rn.toNat < 15 := by
    have := rn.isLt
    have hne : rn.toNat ≠ 15 := fun h => hrn (BitVec.eq_of_toNat_eq h)
    omega
  have hpos := listSize_pos list hl
  have hle := listSize_le list
  have hc : c.reg rn = c.r ⟨rn.toNat, hlt⟩ := dif_pos hlt
  intro h
  have hi := congrFun (congrArg Core.r h) ⟨rn.toNat, hlt⟩
  simp only [Core.blockBack, if_true, Core.setReg, hr] at hi
  rw [← hc] at hi
  cases up
  · simp only [Bool.false_eq_true, if_false] at hi
    bv_omega
  · simp only [if_true] at hi
    bv_omega

theorem state_eq_iff (isa : Isa) (c d : Core) (p : Word) (hp : d.pc = c.pc) :
    Effect.state isa { d with pc := p } = .state .arm c ↔ isa = .arm ∧ p = c.pc ∧ d = c := by
  obtain ⟨r, pc, cpsr, spsr, mem⟩ := c
  obtain ⟨r', pc', cpsr', spsr', mem'⟩ := d
  have hpc : pc' = pc := hp
  simp only [Effect.state.injEq, Core.mk.injEq, hpc]
  tauto

theorem restore_eq_iff (isa : Isa) (c d : Core) (p : Word) (hp : d.pc = c.pc)
    (hc : d.cpsr = c.cpsr) (hs : d.spsr = c.spsr) :
    Core.restore { d with pc := p } isa = .state .arm c ↔
      isa = .arm ∧ p = c.pc ∧ c.spsr = some c.cpsr ∧ d = c := by
  obtain ⟨r, pc, cpsr, spsr, mem⟩ := c
  obtain ⟨r', pc', cpsr', spsr', mem'⟩ := d
  have hpc : pc' = pc := hp
  have hcp : cpsr' = cpsr := hc
  have hsp : spsr' = spsr := hs
  subst hpc hcp hsp
  cases spsr' with
  | none => simp [Core.restore]
  | some s =>
    simp only [Core.restore]
    by_cases hf : field s 0 5 = field cpsr' 0 5
    · rw [if_pos hf]
      simp only [Effect.state.injEq, Core.mk.injEq, Option.some.injEq]
      tauto
    · rw [if_neg hf]
      have hne : s ≠ cpsr' := fun h => hf (by rw [h])
      simp [hne]

theorem branchWrite_self (c d : Core) (v : Word) (hp : d.pc = c.pc) (ha : c.pc &&& 3 = 0) :
    (∃ isa p, branchWrite v = .next isa p ∧ Effect.state isa { d with pc := p } = .state .arm c) ↔
      v = c.pc ∧ d = c := by
  constructor
  · intro hex
    obtain ⟨isa, p, hw, he⟩ := hex
    obtain ⟨-, hpc, hd⟩ := (state_eq_iff isa c d p hp).1 he
    obtain ⟨-, hpv, -⟩ := branchWrite_next hw
    exact ⟨hpv.symm.trans hpc, hd⟩
  · intro hboth
    obtain ⟨hv, hd⟩ := hboth
    exact ⟨.arm, c.pc, by rw [hv, branchWrite, if_pos ha],
      (state_eq_iff .arm c d c.pc hp).2 ⟨rfl, rfl, hd⟩⟩

theorem exchangeWrite_self (c d : Core) (v : Word) (hp : d.pc = c.pc) (ha : c.pc &&& 3 = 0) :
    (∃ isa p, exchangeWrite v = .next isa p ∧
      Effect.state isa { d with pc := p } = .state .arm c) ↔ v = c.pc ∧ d = c := by
  constructor
  · intro hex
    obtain ⟨isa, p, hw, he⟩ := hex
    obtain ⟨hisa, hpc, hd⟩ := (state_eq_iff isa c d p hp).1 he
    rcases exchangeWrite_next hw with ⟨-, -, hpv, -⟩ | ⟨hthumb, -⟩
    · exact ⟨hpv.symm.trans hpc, hd⟩
    · rw [hisa] at hthumb
      cases hthumb
  · intro hboth
    obtain ⟨hv, hd⟩ := hboth
    have h0 : c.pc.getLsbD 0 = false := by
      have h := congrArg (fun x : Word => x.getLsbD 0) ha
      simpa using h
    have h1 : c.pc.getLsbD 1 = false := by
      have h := congrArg (fun x : Word => x.getLsbD 1) ha
      simpa using h
    refine ⟨.arm, c.pc, ?_, (state_eq_iff .arm c d c.pc hp).2 ⟨rfl, rfl, hd⟩⟩
    rw [hv, exchangeWrite, h0, h1]
    rfl

theorem restoreWrite_self (c d : Core) (v : Word) (hp : d.pc = c.pc) (hc : d.cpsr = c.cpsr)
    (hs : d.spsr = c.spsr) (ha : c.pc &&& 3 = 0) (hT : c.cpsr.getLsbD 5 = false) :
    (∃ isa p, restoreWrite c.spsr v = .next isa p ∧
      Core.restore { d with pc := p } isa = .state .arm c) ↔
      v = c.pc ∧ (c.spsr = some c.cpsr ∧ c.cpsr.getLsbD 24 = false) ∧ d = c := by
  constructor
  · intro hex
    obtain ⟨isa, p, hw, he⟩ := hex
    obtain ⟨hisa, hpc, hsp, hd⟩ := (restore_eq_iff isa c d p hp hc hs).1 he
    rw [hisa] at hw
    obtain ⟨hpv, -⟩ := restoreWrite_arm hw
    refine ⟨hpv.symm.trans hpc, ⟨hsp, ?_⟩, hd⟩
    cases hJ : c.cpsr.getLsbD 24 with
    | false => rfl
    | true =>
      rw [hsp, restoreWrite, hJ, if_pos rfl] at hw
      cases hw
  · intro hboth
    obtain ⟨hv, ⟨hsp, hJ⟩, hd⟩ := hboth
    refine ⟨.arm, c.pc, ?_, (restore_eq_iff .arm c d c.pc hp hc hs).2 ⟨rfl, rfl, hsp, hd⟩⟩
    rw [hsp, hv, restoreWrite, hJ, hT, if_neg Bool.false_ne_true, if_neg Bool.false_ne_true,
      branchWrite, if_pos ha]

theorem effect_eq_iff (c : Core) (i : Insn) : c.effect i = .state .arm c ↔
    ∃ isa p, c.execute i = .next isa p ∧ c.commit i isa p = .state .arm c := by
  unfold Core.effect
  cases c.execute i with
  | unpredictable => simp
  | exception => simp
  | next isa p => simp

theorem unless_unpredictable {P : Prop} [Decidable P] {o : Outcome} {k : Isa → Word → Effect}
    {e : Effect} : (∃ isa p, (if P then .unpredictable else o) = .next isa p ∧ k isa p = e) ↔
      ¬ P ∧ ∃ isa p, o = .next isa p ∧ k isa p = e := by
  by_cases h : P
  · simp [h]
  · simp [h]

theorem effect_branch (c : Core) (link : Bool) (offset : BitVec 24)
    (hb : branchTarget c.pc offset = c.pc) :
    c.effect (.branch link offset) = .state .arm c ↔ Keeps c (.branch link offset) := by
  have hl : (c.linked link).pc = c.pc := by
    cases link <;> rfl
  rw [effect_eq_iff, Keeps, ← linked_eq_iff]
  constructor
  · intro hex
    obtain ⟨isa, p, -, he⟩ := hex
    exact ((state_eq_iff isa c _ p hl).1 he).2.2
  · intro hd
    exact ⟨.arm, branchTarget c.pc offset, rfl, (state_eq_iff .arm c _ _ hl).2 ⟨rfl, hb, hd⟩⟩

theorem effect_exchange (c : Core) (link : Bool) (sbo : BitVec 12) (rm : Reg)
    (ha : c.pc &&& 3 = 0) :
    c.effect (.branchExchange link sbo rm) = .state .arm c ↔
      Keeps c (.branchExchange link sbo rm) := by
  have hl : (c.linked link).pc = c.pc := by
    cases link <;> rfl
  rw [effect_eq_iff, Keeps, ← linked_eq_iff]
  simp only [Core.execute, Core.commit]
  rw [unless_unpredictable, exchangeWrite_self c _ _ hl ha]
  tauto

theorem not_effect {c : Core} {i : Insn}
    (h : ∀ isa p, c.execute i = .next isa p → c.commit i isa p ≠ .state .arm c) :
    c.effect i = .state .arm c ↔ False := by
  rw [effect_eq_iff, iff_false]
  intro hex
  obtain ⟨isa, p, hn, he⟩ := hex
  exact h isa p hn he

/-- An instruction that goes on behind itself. -/
theorem not_effect_following {c : Core} {i : Insn} (h : ∀ isa p, c.commit i isa p = .following) :
    c.effect i ≠ .state .arm c := by
  refine (not_effect ?_).mp
  intro isa p _ he
  rw [h] at he
  cases he

theorem commit_alu (c : Core) (op : AluOp) (s : Bool) (rn : Reg) (src : Shifter)
    (ht : op.isTest = false) (isa : Isa) (p : Word) :
    c.commit (.dataProcessing op s rn 15 src) isa p =
      if s then Core.restore { c with pc := p } isa else .state isa { c with pc := p } := by
  simp [Core.commit, ht]

/-- A result that goes to the pc. -/
theorem effect_alu_pc (c : Core) (op : AluOp) (s : Bool) (rn : Reg) (src : Shifter)
    (ht : op.isTest = false) (ha : c.pc &&& 3 = 0) (hT : c.cpsr.getLsbD 5 = false) :
    c.effect (.dataProcessing op s rn 15 src) = .state .arm c ↔
      Keeps c (.dataProcessing op s rn 15 src) := by
  have hf : ¬ (op.isTest = true ∨ (15 : Reg) ≠ 15) := by simp [ht]
  rw [effect_eq_iff, Keeps]
  simp only [commit_alu c op s rn src ht]
  by_cases hreg : ∃ rm rs t, src = .shiftReg rm rs t
  · obtain ⟨rm, rs, t, rfl⟩ := hreg
    have hex : c.execute (.dataProcessing op s rn 15 (.shiftReg rm rs t)) = .unpredictable := by
      simp [Core.execute]
    rw [hex]
    constructor
    · intro hex
      obtain ⟨isa, p, hn, -⟩ := hex
      cases hn
    · intro hboth
      obtain ⟨hne, -⟩ := hboth
      exact absurd rfl (hne rm rs t)
  · have hsrc : ∀ rm rs t, src ≠ .shiftReg rm rs t := fun rm rs t h => hreg ⟨rm, rs, t, h⟩
    have hex : c.execute (.dataProcessing op s rn 15 src) =
        if s then restoreWrite c.spsr (op.result (c.reg rn) (c.shifter src) c.flagC)
        else branchWrite (op.result (c.reg rn) (c.shifter src) c.flagC) := by
      cases src with
      | imm => exact if_neg hf
      | shiftImm => exact if_neg hf
      | shiftReg rm rs t => exact absurd rfl (hsrc rm rs t)
    rw [hex]
    cases s with
    | true =>
      simp only [if_true]
      rw [restoreWrite_self c c _ rfl rfl rfl ha hT]
      simp [hsrc, ht, KeepsStatus]
    | false =>
      simp only [Bool.false_eq_true, if_false]
      rw [branchWrite_self c c _ rfl ha]
      simp [hsrc, ht, KeepsStatus]

theorem effect_alu (c : Core) (op : AluOp) (s : Bool) (rn rd : Reg) (src : Shifter)
    (ha : c.pc &&& 3 = 0) (hT : c.cpsr.getLsbD 5 = false) :
    c.effect (.dataProcessing op s rn rd src) = .state .arm c ↔
      Keeps c (.dataProcessing op s rn rd src) := by
  by_cases hf : op.isTest = true ∨ rd ≠ 15
  · refine iff_of_false (not_effect_following fun isa p => if_pos hf) ?_
    rw [Keeps]
    intro hboth
    obtain ⟨-, ht, hrd, -⟩ := hboth
    simp [ht, hrd] at hf
  · obtain ⟨ht, rfl⟩ : op.isTest = false ∧ rd = 15 := by simpa using hf
    exact effect_alu_pc c op s rn src ht ha hT

theorem writeBack_pc (c : Core) (pre up wb : Bool) (rn : Reg) (off : Offset) :
    (c.writeBack pre up wb rn off).pc = c.pc := by
  rw [Core.writeBack]
  split <;> rfl

/-- A load of the pc. -/
theorem effect_load_pc (c : Core) (byte pre up wb : Bool) (rn : Reg) (off : Offset)
    (ha : c.pc &&& 3 = 0) :
    c.effect (.loadStore true byte pre up wb rn 15 off) = .state .arm c ↔
      Keeps c (.loadStore true byte pre up wb rn 15 off) := by
  have hcommit (isa : Isa) (p : Word) : c.commit (.loadStore true byte pre up wb rn 15 off) isa p =
      .state isa { c.writeBack pre up wb rn off with pc := p } := rfl
  have hex : c.execute (.loadStore true byte pre up wb rn 15 off) =
      if byte ∨ (!pre ∧ wb) ∨ (rn = 15 ∧ (!pre ∨ wb)) ∨ off.usesPc then .unpredictable
      else if c.address pre up rn off &&& 3 ≠ 0 then .unpredictable
      else exchangeWrite (wordAt c.mem (c.address pre up rn off)) := rfl
  have hpc := writeBack_pc c pre up wb rn off
  rw [effect_eq_iff, Keeps]
  simp only [hcommit]
  rw [hex, unless_unpredictable, unless_unpredictable, exchangeWrite_self c _ _ hpc ha]
  by_cases hrn : rn = 15
  · have hback : pre = true → wb = false → c.writeBack pre up wb rn off = c := by
      intro hp hw
      rw [Core.writeBack, hp, hw]
      rfl
    cases pre <;> cases wb <;> simp_all
    tauto
  · rw [writeBack_eq_iff c pre up wb rn off hrn]
    cases pre <;> cases wb <;> simp_all <;> tauto

theorem effect_load (c : Core) (load byte pre up wb : Bool) (rn rd : Reg) (off : Offset)
    (ha : c.pc &&& 3 = 0) :
    c.effect (.loadStore load byte pre up wb rn rd off) = .state .arm c ↔
      Keeps c (.loadStore load byte pre up wb rn rd off) := by
  by_cases hf : (!load) = true ∨ rd ≠ 15
  · refine iff_of_false (not_effect_following fun isa p => if_pos hf) ?_
    rw [Keeps]
    intro hboth
    obtain ⟨hl, hrd, -⟩ := hboth
    simp [hl, hrd] at hf
  · obtain ⟨rfl, rfl⟩ : load = true ∧ rd = 15 := by simpa using hf
    exact effect_load_pc c byte pre up wb rn off ha

theorem loadBlock_reg (c : Core) (pre up : Bool) (rn : Reg) (list : BitVec 16)
    (h : list.getLsbD rn.toNat = false) : (c.loadBlock pre up rn list).reg rn = c.reg rn := by
  simp only [Core.reg, Core.loadBlock, h, Bool.false_eq_true, if_false]

/-- A block load that moves its base does not leave the core as it was. -/
theorem commit_back_ne (c : Core) (load pre up s : Bool) (rn : Reg) (list : BitVec 16)
    (hrn : rn ≠ 15) (h15 : list.getLsbD 15 = true) (isa : Isa) (p : Word) :
    c.commit (.block load pre up s true rn list) isa p ≠ .state .arm c := by
  intro he
  simp only [Core.commit] at he
  split at he
  · cases he
  · split at he
    · cases he
    · rename_i hin
      have hback := blockBack_ne c (c.loadBlock pre up rn list) up rn list hrn h15
        (loadBlock_reg c pre up rn list (by simpa using hin))
      have hpc : ((c.loadBlock pre up rn list).blockBack up true rn list).pc = c.pc := rfl
      cases s with
      | true => exact hback ((restore_eq_iff isa c _ p hpc rfl rfl).1 he).2.2.2
      | false => exact hback ((state_eq_iff isa c _ p hpc).1 he).2.2

/-- A block load of the pc. -/
theorem effect_block_pc (c : Core) (pre up s wb : Bool) (rn : Reg) (list : BitVec 16)
    (h15 : list.getLsbD 15 = true) (ha : c.pc &&& 3 = 0) (hT : c.cpsr.getLsbD 5 = false) :
    c.effect (.block true pre up s wb rn list) = .state .arm c ↔
      Keeps c (.block true pre up s wb rn list) := by
  have hf : ¬ ((!true) = true ∨ (!list.getLsbD 15) = true) := by simp [h15]
  have hex : c.execute (.block true pre up s wb rn list) =
      if rn = 15 then .unpredictable
      else if s then restoreWrite c.spsr (wordAt c.mem (c.blockTop pre up rn list &&& ~~~3))
      else exchangeWrite (wordAt c.mem (c.blockTop pre up rn list &&& ~~~3)) := if_neg hf
  have hcommit (isa : Isa) (p : Word) : c.commit (.block true pre up s wb rn list) isa p =
      if wb ∧ list.getLsbD rn.toNat then .unpredictable
      else if s then
        Core.restore { (c.loadBlock pre up rn list).blockBack up wb rn list with pc := p } isa
      else .state isa { (c.loadBlock pre up rn list).blockBack up wb rn list with pc := p } :=
    if_neg hf
  rw [effect_eq_iff, Keeps]
  simp only [hcommit]
  rw [hex, unless_unpredictable]
  by_cases hrn : rn = 15
  · simp [hrn]
  cases wb with
  | true =>
    constructor
    · intro hboth
      obtain ⟨-, isa, p, -, he⟩ := hboth
      rw [← hcommit isa p] at he
      exact absurd he (commit_back_ne c true pre up s rn list hrn h15 isa p)
    · intro hboth
      obtain ⟨-, -, -, hw, -⟩ := hboth
      cases hw
  | false =>
    have hback : (c.loadBlock pre up rn list).blockBack up false rn list =
        c.loadBlock pre up rn list := rfl
    simp only [Bool.false_eq_true, false_and, if_false, hback]
    cases s with
    | true =>
      simp only [if_true]
      rw [restoreWrite_self c (c.loadBlock pre up rn list) _ rfl rfl rfl ha hT, loadBlock_eq_iff]
      simp only [h15, hrn, KeepsStatus]
      tauto
    | false =>
      simp only [Bool.false_eq_true, if_false]
      rw [exchangeWrite_self c (c.loadBlock pre up rn list) _ rfl ha, loadBlock_eq_iff]
      simp only [h15, hrn, KeepsStatus]
      tauto

theorem effect_block (c : Core) (load pre up s wb : Bool) (rn : Reg) (list : BitVec 16)
    (ha : c.pc &&& 3 = 0) (hT : c.cpsr.getLsbD 5 = false) :
    c.effect (.block load pre up s wb rn list) = .state .arm c ↔
      Keeps c (.block load pre up s wb rn list) := by
  by_cases hf : (!load) = true ∨ (!list.getLsbD 15) = true
  · refine iff_of_false (not_effect_following fun isa p => if_pos hf) ?_
    rw [Keeps]
    intro hboth
    obtain ⟨hl, hpc, -⟩ := hboth
    rw [hl, hpc] at hf
    simp at hf
  · obtain ⟨rfl, h15⟩ : load = true ∧ list.getLsbD 15 = true := by simpa using hf
    exact effect_block_pc c pre up s wb rn list h15 ha hT

/-- The other instructions that go on at an aligned pc. -/
theorem effect_iff (c : Core) (i : Insn) (hT : c.cpsr.getLsbD 5 = false) (ha : c.pc &&& 3 = 0)
    (hn : ∀ link offset, i ≠ .branch link offset) :
    c.effect i = .state .arm c ↔ Keeps c i := by
  cases i with
  | branch link offset => exact absurd rfl (hn link offset)
  | branchExchange link sbo rm => exact effect_exchange c link sbo rm ha
  | dataProcessing op s rn rd src => exact effect_alu c op s rn rd src ha hT
  | loadStore load byte pre up wb rn rd off =>
    exact effect_load c load byte pre up wb rn rd off ha
  | block load pre up s wb rn list => exact effect_block c load pre up s wb rn list ha hT
  | branchExchangeImm half offset =>
    refine not_effect fun isa p hn he => ?_
    cases hn
    cases he
  | branchJazelle sbo rm =>
    refine not_effect fun isa p hn he => ?_
    cases (ite_unpredictable hn).2
    cases he
  | _ => exact not_effect nofun

variable (g : ArmRegs) (m : Mem)

theorem masked_aligned (x : Word) : (x &&& ~~~3) &&& 3 = 0 := by
  rw [BitVec.and_assoc, show (~~~3 &&& 3 : Word) = 0 from rfl]
  exact BitVec.and_zero

theorem next_ne (x : Word) : some (x + 4) ≠ some x := by
  intro h
  have he : x + 4 = x := Option.some.inj h
  bv_omega

/-- Only a branch can name its own address without the mask that aligns it. -/
theorem armTarget_self (w : Word) (hb : ¬ w &&& 0x0E000000 = 0x0A000000)
    (h : armTarget g m w = some g.pc) : g.pc &&& 3 = 0 := by
  have masked {x : Word} (hx : some (x &&& ~~~3) = some g.pc) : g.pc &&& 3 = 0 := by
    rw [← Option.some.inj hx]
    exact masked_aligned x
  simp only [armTarget, if_neg hb] at h
  split at h
  · split at h
    · cases h
    · exact masked h
  · split at h
    · exact masked h
    · split at h
      · exact masked h
      · split at h
        · split at h
          · exact absurd h (next_ne _)
          · exact masked h
        · exact absurd h (next_ne _)

theorem decode_branch (w : Word) (h : w &&& 0x0E000000 = 0x0A000000) :
    decode w = .branch (w.getLsbD 24) (field w 0 24) := by
  obtain ⟨h27, h26, h25⟩ := (mask_branch w).1 h
  simp only [decode, h27, h26, h25]

theorem plain_not_branch {i : Insn} (hi : plain i = true) (link : Bool) (offset : BitVec 24) :
    i ≠ .branch link offset := by
  intro heq
  obtain rfl := heq
  cases hi

theorem decodeMisc_not_branch (w : Word) (link : Bool) (offset : BitVec 24) :
    decodeMisc w ≠ .branch link offset := by
  rcases decodeMisc_cases w with ⟨hp, -⟩ | ⟨sbo, rm, hd, -⟩ | ⟨l, hd, -⟩
  · exact plain_not_branch hp link offset
  · rw [hd]
    nofun
  · rw [hd]
    nofun

/-- Only the branch mask decodes to a branch. -/
theorem decode_not_branch (w : Word) (h : ¬ w &&& 0x0E000000 = 0x0A000000) (link : Bool)
    (offset : BitVec 24) : decode w ≠ .branch link offset := by
  rw [mask_branch] at h
  unfold decode
  cases h27 : w.getLsbD 27 <;> cases h26 : w.getLsbD 26 <;> cases h25 : w.getLsbD 25
  · dsimp only
    split
    · exact plain_not_branch (decodeExtension_plain w) link offset
    · split
      · exact decodeMisc_not_branch w link offset
      · split <;> nofun
  · dsimp only
    split
    · split <;> nofun
    · nofun
  · nofun
  · dsimp only
    split <;> nofun
  · nofun
  · exact absurd ⟨h27, h26, h25⟩ h
  · nofun
  · dsimp only
    split <;> nofun

def stopReply (s : Stub) : Stub :=
  { s with out := outFinish (outByte (SIG_TRAP.setWidth 8) (outCh 0x53 (outBegin s.out))) }

/-- do_step reports an instruction that goes on at its own address as done, and leaves registers
and memory as they are. That is what the instruction does exactly when it is one of `Keeps`. -/
theorem doStep_self_iff (s : Stub) (spsr : Option Word) (hT : s.regs.cpsr &&& CPSR_T = 0)
    (hs : armNextPc s.regs s.mem = some s.regs.pc) :
    doStep s = (.returned, stopReply s) ∧
      ((core s.regs spsr s.mem).effectStep = .state .arm (core s.regs spsr s.mem) ↔
        Keeps (core s.regs spsr s.mem) (core s.regs spsr s.mem).insn) := by
  have hT5 : (core s.regs spsr s.mem).cpsr.getLsbD 5 = false := by
    cases hb : s.regs.cpsr.getLsbD 5 with
    | false => exact hb
    | true => exact absurd hT ((and_bit_ne_zero s.regs.cpsr 5 (by decide)).2 hb)
  constructor
  · simp only [doStep, hs, if_true, stopReply]
  rw [armNextPc_of_T s.regs spsr s.mem hT] at hs
  by_cases hcond : field (core s.regs spsr s.mem).insnWord 28 4 = 15
  · rw [if_pos hcond] at hs
    cases hs
  rw [if_neg hcond] at hs
  have hi : (core s.regs spsr s.mem).insn = decode (core s.regs spsr s.mem).insnWord :=
    if_neg hcond
  cases ht : (core s.regs spsr s.mem).taken with
  | false =>
    rw [ht, if_neg Bool.false_ne_true] at hs
    exact absurd hs (next_ne _)
  | true =>
    rw [ht, if_pos rfl] at hs
    rw [Core.effectStep, ht, if_pos rfl]
    by_cases hb : (core s.regs spsr s.mem).insnWord &&& 0x0E000000 = 0x0A000000
    · obtain ⟨h27, h26, h25⟩ := (mask_branch _).1 hb
      rw [armTarget_branch s.regs s.mem _ h27 h26 h25] at hs
      rw [hi, decode_branch _ hb]
      exact effect_branch _ _ _ (Option.some.inj hs)
    · have ha := armTarget_self s.regs s.mem _ hb hs
      rw [hi]
      exact effect_iff _ _ hT5 ha (decode_not_branch _ hb)

def stubAt (w : Word) : Stub :=
  { Stub.idle with regs := regsAt 0 0 0x30000000, mem := storeWord (fun _ => 0) 0x30000000 w }

/-- `b .` keeps everything. -/
theorem doStep_self_branch :
    (core (stubAt 0xEAFFFFFE).regs none (stubAt 0xEAFFFFFE).mem).effectStep =
      .state .arm (core (stubAt 0xEAFFFFFE).regs none (stubAt 0xEAFFFFFE).mem) :=
  (doStep_self_iff (stubAt 0xEAFFFFFE) none (by decide) (by decide)).2.2 (by
    have hi : (core (stubAt 0xEAFFFFFE).regs none (stubAt 0xEAFFFFFE).mem).insn =
        .branch false 0xFFFFFE := by decide
    rw [hi]
    nofun)

/-- `bl .` is answered without its write of lr. -/
theorem doStep_loses_link :
    ¬ ∀ (s : Stub) (spsr : Option Word), s.regs.cpsr &&& CPSR_T = 0 →
      armNextPc s.regs s.mem = some s.regs.pc →
      (core s.regs spsr s.mem).effectStep = .state .arm (core s.regs spsr s.mem) := by
  intro h
  have he := h (stubAt 0xEBFFFFFE) none (by decide) (by decide)
  have ht : (core (stubAt 0xEBFFFFFE).regs none (stubAt 0xEBFFFFFE).mem).taken = true := by decide
  have hi : (core (stubAt 0xEBFFFFFE).regs none (stubAt 0xEBFFFFFE).mem).insn =
      .branch true 0xFFFFFE := by decide
  rw [Core.effectStep, ht, if_pos rfl, hi] at he
  have hl : (core (stubAt 0xEBFFFFFE).regs none (stubAt 0xEBFFFFFE).mem).lr = 0x30000004 :=
    (effect_branch _ true 0xFFFFFE (by decide)).1 he rfl
  revert hl
  decide

end AipcOs.StepSelf
