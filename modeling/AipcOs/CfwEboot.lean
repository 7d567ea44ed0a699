import AipcOs.PatchPair

/-! cfw: what the EBOOT stage makes of the image that it patches. -/
namespace AipcOs.CfwEboot
open ByteMemory WordPattern PatchFinder PatchPair

def EXACT : Word := 0xFFFFFFFF

inductive Stage where
  | eboot
  | nk
  deriving DecidableEq

/-- What a patch adds to its set; the rest of the state is `found` of power_hold.c. -/
abbrev Build := PatchSet Bool → Except String (PatchSet Bool)

structure CfwPatch where
  stage : Stage
  patch : Build

structure Component where
  id : String
  init : State Bool → State Bool
  finish : State Bool → Except String Unit
  patches : List CfwPatch

def hasStage (c : Component) (stage : Stage) : Bool := c.patches.any fun p => p.stage == stage

section power_hold

def hold1582_match : List Word :=
  [0xE3E03801, 0xE5802098, 0xE5803094, 0xE3E03000, 0xE580307C, 0xE3E03000]

def hold1582_mask : List Word := [EXACT, EXACT, EXACT, EXACT, EXACT, EXACT]

def hold1582_to : List Word :=
  [0xE3822C02, 0xE1E03002, 0xE5802098, 0xE5803094, 0xE3E03000, 0xE580307C]

def hold188_match : List Word :=
  [0xE3E03000, 0xE580308C, 0xE3E03000, 0xE3A02000, 0xE5803094, 0xE58020E0, 0xE58020E4, 0xE58020E8,
    0xE3E03000, 0xE58020EC, 0xE58030F0, 0xE3E03000, 0xE58030F4, 0xE3E03000, 0xE58030F8, 0xE3E03000,
    0xE58030FC, 0xE5802080, 0xE5802088, 0xE5802090, 0xE5802098]

def hold188_mask : List Word := List.replicate 21 EXACT

def HOLD188_DIR : Nat := 2
def MVN_R3_0x200 : Word := 0xE3E03C02
def HOLD188_OUT : Nat := 15

def hold188_out_to : List Word := [0xE58030FC, 0xE5802080, 0xE5802088, 0xE5802090, 0xE3A02C02]

def putWords (d : Nat) (src : List Word) : List (Nat × Word) :=
  src.zipIdx.map fun p => (d + p.2, p.1)

def hold1582 : List (Entry 32) := hold1582_match.zip hold1582_mask
def hold188 : List (Entry 32) := hold188_match.zip hold188_mask
def hold1582_writes : List (Nat × Word) := putWords 0 hold1582_to
def hold188_writes : List (Nat × Word) :=
  (HOLD188_DIR, MVN_R3_0x200) :: putWords HOLD188_OUT hold188_out_to

/-- The set holds the later pattern first. -/
def power_hold_patch : Build := fun set => do
  let set ← pfMaskmatch set "power hold v1.58.2" hold1582 false
    (onceCallback "power hold v1.58.2" hold1582_writes fun _ => true)
  pfMaskmatch set "power hold v1.88" hold188 false
    (onceCallback "power hold v1.88" hold188_writes fun _ => true)

def power_hold_finish (s : State Bool) : Except String Unit :=
  if s.rest then .ok () else .error "Missing patch: power hold"

def cfw_power_hold : Component where
  id := "power_hold"
  init := id
  finish := power_hold_finish
  patches := [⟨.eboot, power_hold_patch⟩]

end power_hold

section battery_check_skip

def MOV_R0_1 : Word := 0xE3A00001
def BX_LR : Word := 0xE12FFF1E

def check_match : List Word :=
  [0xE92D4030, 0xE3A04003, 0xEB000000, 0xEB000000, 0xE3500000, 0x1A000000, 0xEB000000, 0xE3A05000,
    0xE3855001, 0xE1500005, 0xCA000000]

def check_mask : List Word :=
  [EXACT, EXACT, 0xFF000000, 0xFF000000, EXACT, 0xFF000000, 0xFF000000, 0xFFFFF000, EXACT, EXACT,
    0xFF000000]

def batteryCheck : List (Entry 32) := check_match.zip check_mask
def check_writes : List (Nat × Word) := [(0, MOV_R0_1), (1, BX_LR)]

def battery_check_skip_patch : Build := fun set =>
  pfMaskmatch set "battery check" batteryCheck true
    (onceCallback "battery check" check_writes id)

def cfw_battery_check_skip : Component where
  id := "battery_check_skip"
  init := id
  finish := fun _ => .ok ()
  patches := [⟨.eboot, battery_check_skip_patch⟩]

end battery_check_skip

section handoff

def handoff_match : List Word :=
  [0xE3A01070, 0xEE011F10, 0xE1A00000, 0xE1A0F002, 0xE1A00000, 0xE3A02000, 0xEE082F17, 0xE1A0F000,
    0xE1A0F00E]

def handoff_mask : List Word := List.replicate 9 EXACT

def HANDOFF_JUMP : Nat := 7
def LDR_PC_PC_MINUS4 : Word := 0xE51FF004

def handoffPattern : List (Entry 32) := handoff_match.zip handoff_mask

def handoff_writes (nk_entry : Word) : List (Nat × Word) :=
  [(HANDOFF_JUMP + 1, nk_entry), (HANDOFF_JUMP, LDR_PC_PC_MINUS4)]

def handoff_patch (nk_entry : Word) (size : Nat) (s : State Bool) :
    Except String (State Bool) := do
  let set ← pfMaskmatch pfPatchsetCreate "handoff to nkpf" handoffPattern true
    (onceCallback "handoff to nkpf" (handoff_writes nk_entry) id)
  let (_, s) ← pfApply size set s
  return s

end handoff

/-- The components with NK patches only; what these add and do is not looked at here. -/
def cfw_rtc_stall_fix (rtc_stall_fix_patch : Build) : Component where
  id := "rtc_stall_fix"
  init := id
  finish := fun _ => .ok ()
  patches := [⟨.nk, rtc_stall_fix_patch⟩]

def cfw_diag (cfw_nk_resident_install : State Bool → State Bool) (irq_patch ioctl_patch : Build) :
    Component where
  id := "diag"
  init := cfw_nk_resident_install
  finish := fun _ => .ok ()
  patches := [⟨.nk, irq_patch⟩, ⟨.nk, ioctl_patch⟩]

def runPatch (stage : Stage) (size : Nat) (s : State Bool) (p : CfwPatch) :
    Except String (State Bool) :=
  if p.stage ≠ stage then .ok s
  else do
    let set ← p.patch pfPatchsetCreate
    let (_, s) ← pfApply size set s
    return s

def runComponent (stage : Stage) (size : Nat) (c : Component) (s : State Bool) :
    Except String (State Bool) := do
  let s ← c.patches.foldlM (runPatch stage size) (c.init s)
  c.finish s
  return s

def cfwRun (stage : Stage) (size : Nat) (cfw_enable : Word) :
    (i : Nat) → List Component → State Bool → Except String (State Bool)
  | _, [], s => .ok s
  | i, c :: cs, s =>
    if !cfw_enable.getLsbD i || !hasStage c stage then cfwRun stage size cfw_enable (i + 1) cs s
    else do
      let s ← runComponent stage size c s
      cfwRun stage size cfw_enable (i + 1) cs s

def outDigits (base : Nat) : (room : Nat) → (v : Nat) → List Char
  | 0, _ => []
  | room + 1, v =>
    let d := v % base
    (if d < 10 then Char.ofNat (48 + d) else Char.ofNat (65 + (d - 10))) ::
      if v / base = 0 then [] else outDigits base room (v / base)

def outNum (v base width : Nat) (pad : Char) : List Char :=
  let buf := outDigits base 12 v
  List.replicate (width - buf.length) pad ++ buf.reverse

variable (rtc_stall_fix_patch : Build) (cfw_nk_resident_install : State Bool → State Bool)
  (irq_patch ioctl_patch : Build) (nk_entry : Word)

def cfw_components : List Component :=
  [cfw_power_hold, cfw_battery_check_skip, cfw_rtc_stall_fix rtc_stall_fix_patch,
    cfw_diag cfw_nk_resident_install irq_patch ioctl_patch]

/-- eboot_main: the image after the patches, or the text of the panic that eboot_stage returns. -/
def ebootMain (enable bytes : Word) (mem : Image 32) : Except String (State Bool) :=
  let components := cfw_components rtc_stall_fix_patch cfw_nk_resident_install irq_patch ioctl_patch
  let size := (bytes &&& ~~~3#32).toNat
  if enable >>> components.length ≠ 0 then
    .error ("Unknown components 0x" ++ String.ofList (outNum enable.toNat 16 0 ' '))
  else do
    let s ← cfwRun .eboot size enable 0 components ⟨mem, false⟩
    handoff_patch nk_entry size s

end AipcOs.CfwEboot
