import AipcOs.RspOut

/-! gdbstub/rsp.c: the table of software breakpoints. -/
namespace AipcOs.Rsp
open ByteMemory

def BP_INSN : Word := 0xE7FFDEFE
def BP_MAX : Nat := 16

structure Bp where
  addr : Word
  saved : Word
  active : Bool
  deriving DecidableEq

abbrev BpTable := Fin BP_MAX → Bp

def bpSlot (t : BpTable) (addr : Word) : Option (Fin BP_MAX) :=
  (List.finRange BP_MAX).find? fun i => (t i).active && (t i).addr == addr

def bpLookup (t : BpTable) (addr : Word) : Option Word := (bpSlot t addr).map fun i => (t i).saved

def bpFree (t : BpTable) : Option (Fin BP_MAX) :=
  (List.finRange BP_MAX).find? fun i => !(t i).active

/-- The return value 0 means that every slot is taken. -/
def bpSet (addr : Word) (t : BpTable) (m : Mem) : Bool × BpTable × Mem :=
  if (bpLookup t addr).isSome then (true, t, m)
  else
    match bpFree t with
    | none => (false, t, m)
    | some i =>
      (true, Function.update t i ⟨addr, load32 m addr, true⟩, store32 m addr BP_INSN)

/-- Removing an unset breakpoint is not an error. -/
def bpClear (addr : Word) (t : BpTable) (m : Mem) : Bool × BpTable × Mem :=
  match bpSlot t addr with
  | none => (true, t, m)
  | some i => (true, Function.update t i { t i with active := false }, store32 m addr (t i).saved)

end AipcOs.Rsp
