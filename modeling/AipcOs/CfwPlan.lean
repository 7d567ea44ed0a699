import AipcOs.CfwEboot

/-! Which images the EBOOT stage of cfw accepts, and what it makes of them. -/
namespace AipcOs.CfwPlan
open ByteMemory WordPattern PatchFinder PatchPair CfwEboot

def CFW_PHYS : Nat := 0x30190000
def CFW_MAX : Nat := 0xA000

/-- Where the stage writes; what is not enabled has no place. -/
structure Plan where
  hold1582 : Option Nat
  hold188 : Option Nat
  check : Option Nat
  handoff : Nat

def Plan.image (p : Plan) (nk_entry : Word) (m : Image 32) : Image 32 :=
  write
    (fill (patched m hold188_writes hold1582_writes p.hold188 p.hold1582) check_writes p.check)
    p.handoff (handoff_writes nk_entry)

structure HoldFound (enabled : Bool) (m : Image 32) (n : Nat) (fa fb : Option Nat) : Prop where
  hold1582 : (if enabled then sites hold1582 m n else []) = fb.toList
  hold188 : (if enabled then (sites hold188 m n).filter fun i => Shown CfwEboot.hold1582 fb i
    else []) = fa.toList
  hold : (fa.isSome || fb.isSome) = enabled

structure OnceFound (P : List (Entry 32)) (enabled : Bool) (m : Image 32) (n : Nat)
    (f : Option Nat) : Prop where
  once : (if enabled then sites P m n else []) = f.toList
  isSome : f.isSome = enabled

structure Plan.Found (p : Plan) (enable : Word) (m : Image 32) (n : Nat) : Prop where
  hold : HoldFound (enable.getLsbD 0) m n p.hold188 p.hold1582
  check : OnceFound batteryCheck (enable.getLsbD 1) m n p.check
  handoff : sites handoffPattern m n = [p.handoff]

variable {P Q : List (Entry 32)} {ws : List (Nat × Word)} {m m' : Image 32}
  {fa fb f : Option Nat} {s s' : State Bool} {size n : Nat} {enable nk_entry : Word} {on : Bool}

theorem hold_pair : Pair hold188 hold1582 hold188_writes hold1582_writes where
  long := by decide
  short := by decide
  a := ⟨by decide, by decide +kernel, by decide +kernel⟩
  b := ⟨by decide, by decide +kernel, by decide +kernel⟩
  apart := by decide +kernel
  seen := by decide +kernel
  behind := by decide +kernel
  shown := by decide +kernel

theorem check_sound : Sound batteryCheck check_writes where
  inside := by decide
  solid := by decide +kernel
  behind := by decide +kernel

theorem apart_head {d : Nat} (hd : d < P.length) (hQ : 0 < Q.length)
    (h : Clash P[d] Q[0]) : Apart P Q d := by
  refine ⟨(P[d], Q[0]), ?_, h⟩
  rw [List.mem_iff_getElem]
  have hlen : 0 < ((P.drop d).zip Q).length := by
    rw [List.length_zip, List.length_drop]
    omega
  refine ⟨0, hlen, ?_⟩
  rw [List.getElem_zip, List.getElem_drop]
  rfl

theorem handoff_after (nk_entry : Word) :
    (after handoffPattern (handoff_writes nk_entry)).drop 1 = (handoffPattern.take 7).drop 1 ++
      [(LDR_PC_PC_MINUS4, BitVec.allOnes 32), (nk_entry, BitVec.allOnes 32)] := rfl

theorem handoff_sound (h : nk_entry.toNat < CFW_PHYS + CFW_MAX) :
    Sound handoffPattern (handoff_writes nk_entry) where
  inside := by
    intro p hp
    obtain rfl | rfl := List.mem_pair.mp hp
    · change HANDOFF_JUMP + 1 < handoffPattern.length
      decide
    · decide
  solid := by decide +kernel
  behind := by
    have head : ((handoffPattern.take 7).drop 1).all (fun e => Clash e (0xE3A01070, EXACT)) =
        true := by decide +kernel
    have hclash : ∀ e ∈ (after handoffPattern (handoff_writes nk_entry)).drop 1,
        Clash e (0xE3A01070, EXACT) := by
      intro e he
      rw [handoff_after] at he
      obtain he | he := List.mem_append.mp he
      · exact of_decide_eq_true (List.all_eq_true.mp head e he)
      · obtain rfl | rfl := List.mem_pair.mp he
        · decide
        · intro heq
          rw [EXACT, BitVec.and_allOnes] at heq
          have hvalue : nk_entry = 0xE3A01070 := (BitVec.and_allOnes).symm.trans heq
          rw [hvalue] at h
          exact absurd h (by decide)
    intro d hd hpos
    have hlen : d < (after handoffPattern (handoff_writes nk_entry)).length := by
      rwa [after_length]
    refine apart_head hlen (by decide) (hclash _ ?_)
    obtain ⟨k, rfl⟩ := Nat.exists_eq_add_of_lt hpos
    rw [List.mem_iff_getElem]
    have hdrop : k < ((after handoffPattern (handoff_writes nk_entry)).drop 1).length := by
      rw [List.length_drop]
      omega
    refine ⟨k, hdrop, ?_⟩
    rw [List.getElem_drop]
    simp only [Nat.add_comm]

theorem bind_ok {ε α β : Type} {x : Except ε α} {f : α → Except ε β} {b : β} :
    (x >>= f) = .ok b ↔ ∃ a, x = .ok a ∧ f a = .ok b := by
  cases x with
  | error e =>
    constructor
    · intro h
      cases h
    · intro h
      obtain ⟨a, ha, -⟩ := h
      cases ha
  | ok a =>
    constructor
    · intro h
      exact ⟨a, rfl, h⟩
    · intro h
      obtain ⟨a', ha, h⟩ := h
      cases ha
      exact h

theorem ok_bind {ε α β : Type} (a : α) (f : α → Except ε β) : (Except.ok a >>= f) = f a := rfl

def good (p : Entry 32) : Bool := p.1 &&& p.2 == p.1

theorem hold1582_good : hold1582.all good = true := by decide +kernel

theorem hold188_good : hold188.all good = true := by decide +kernel

theorem check_good : batteryCheck.all good = true := by decide +kernel

theorem handoff_good : handoffPattern.all good = true := by decide +kernel

theorem pfMaskmatch_good {set : PatchSet Bool} {name : String} {pairs : List (Entry 32)}
    {required : Bool} {ws : List (Nat × Word)} {note : Bool → Bool}
    (h : pairs.all good = true) :
    pfMaskmatch set name pairs required (onceCallback name ws note) =
      .ok ⟨oncePatch name pairs required ws note false :: set.patches, set.is_required⟩ := by
  have hnone : (pairs.findIdx? fun p => p.1 &&& p.2 != p.1) = none := by
    rw [List.findIdx?_eq_none_iff]
    intro p hp
    have hgood : (p.1 &&& p.2 == p.1) = true := List.all_eq_true.mp h p hp
    rw [bne, hgood]
    rfl
  rw [pfMaskmatch, hnone]
  rfl

theorem runPatch_eq {stage : Stage} {p : CfwPatch} {set : PatchSet Bool} (hstage : p.stage = stage)
    (hset : p.patch pfPatchsetCreate = .ok set) :
    runPatch stage size s p = (do
      let r ← pfApply size set s
      return r.2) := by
  rw [runPatch, if_neg (not_not.mpr hstage), hset]
  rfl

section power_hold

theorem power_hold_patches : power_hold_patch pfPatchsetCreate =
    .ok ⟨patches "power hold v1.88" "power hold v1.58.2" hold188 hold1582 hold188_writes
      hold1582_writes none none, true⟩ := by
  rw [power_hold_patch, pfMaskmatch_good hold1582_good, ok_bind,
    pfMaskmatch_good hold188_good]
  rfl

theorem pfApply_hold {r : PatchSet Bool × State Bool} :
    pfApply size ⟨patches "power hold v1.88" "power hold v1.58.2" hold188 hold1582 hold188_writes
      hold1582_writes none none, true⟩ ⟨m, false⟩ = .ok r ↔
      ∃ fa fb, Ends hold188 hold1582 m 0 (size / 4) none none fa fb ∧
        r = (⟨patches "power hold v1.88" "power hold v1.58.2" hold188 hold1582 hold188_writes
          hold1582_writes fa fb, true⟩, reached m false hold188_writes hold1582_writes fa fb) := by
  rw [pfApply, bind_ok]
  constructor
  · intro h
    obtain ⟨res, hscan, hr⟩ := h
    obtain ⟨fa, fb, hends, rfl⟩ := (scan_pair hold_pair (inv_start m)).mp hscan
    cases hr
    exact ⟨fa, fb, hends, rfl⟩
  · intro h
    obtain ⟨fa, fb, hends, rfl⟩ := h
    exact ⟨_, (scan_pair hold_pair (inv_start m)).mpr ⟨fa, fb, hends, rfl⟩, rfl⟩

theorem holdFound_ends :
    ((if true then (sites hold188 m n).filter fun i => Shown hold1582 fb i else []) = fa.toList ∧
      (if true then sites hold1582 m n else []) = fb.toList) ↔
      Ends hold188 hold1582 m 0 n none none fa fb := by
  rw [if_pos rfl, if_pos rfl]
  constructor
  · intro h
    refine ⟨?_, ?_⟩
    · rw [sitesFrom_zero]
      exact h.1
    · rw [sitesFrom_zero]
      exact h.2
  · intro h
    obtain ⟨ha, hb⟩ := h
    rw [sitesFrom_zero] at ha hb
    exact ⟨ha, hb⟩

theorem runComponent_hold : runComponent .eboot size cfw_power_hold ⟨m, false⟩ = .ok s ↔
    ∃ fa fb, HoldFound true m (size / 4) fa fb ∧
      s = ⟨patched m hold188_writes hold1582_writes fa fb, true⟩ := by
  have hrun : runComponent .eboot size cfw_power_hold ⟨m, false⟩ = (do
      let r ← pfApply size ⟨patches "power hold v1.88" "power hold v1.58.2" hold188 hold1582
        hold188_writes hold1582_writes none none, true⟩ ⟨m, false⟩
      power_hold_finish r.2
      return r.2) := by
    rw [runComponent]
    change ((runPatch .eboot size ⟨m, false⟩ ⟨.eboot, power_hold_patch⟩ >>= pure) >>= _) = _
    rw [bind_pure, runPatch_eq (p := ⟨.eboot, power_hold_patch⟩) rfl power_hold_patches]
    exact bind_assoc _ _ _
  rw [hrun, bind_ok]
  constructor
  · intro h
    obtain ⟨r, happly, hfinish⟩ := h
    obtain ⟨fa, fb, hends, rfl⟩ := pfApply_hold.mp happly
    obtain ⟨ha, hb⟩ := holdFound_ends.mpr hends
    have hrest : (reached m false hold188_writes hold1582_writes fa fb).rest =
        (fa.isSome || fb.isSome) := Bool.or_false _
    rw [power_hold_finish, hrest] at hfinish
    by_cases hfound : (fa.isSome || fb.isSome) = true
    · rw [hfound] at hfinish
      cases hfinish
      refine ⟨fa, fb, ⟨hb, ha, hfound⟩, ?_⟩
      rw [← hfound, ← hrest]
      rfl
    · rw [if_neg hfound] at hfinish
      cases hfinish
  · intro h
    obtain ⟨fa, fb, hfound, rfl⟩ := h
    have hends := holdFound_ends.mp ⟨hfound.hold188, hfound.hold1582⟩
    refine ⟨_, pfApply_hold.mpr ⟨fa, fb, hends, rfl⟩, ?_⟩
    have hreached : reached m false hold188_writes hold1582_writes fa fb =
        ⟨patched m hold188_writes hold1582_writes fa fb, true⟩ := by
      rw [reached, Bool.or_false, hfound.hold]
    rw [hreached]
    rfl

theorem HoldFound.off : HoldFound false m n fa fb ↔ fa = none ∧ fb = none := by
  constructor
  · intro h
    have hb := h.hold1582
    have ha := h.hold188
    exact ⟨toList_inj ha.symm, toList_inj hb.symm⟩
  · intro h
    obtain ⟨rfl, rfl⟩ := h
    exact ⟨rfl, rfl, rfl⟩

theorem hold_iff (on : Bool) :
    (if on then runComponent .eboot size cfw_power_hold ⟨m, false⟩ else .ok ⟨m, false⟩) = .ok s ↔
      ∃ fa fb, HoldFound on m (size / 4) fa fb ∧
        s = ⟨patched m hold188_writes hold1582_writes fa fb, on⟩ := by
  cases on with
  | true => exact runComponent_hold
  | false =>
    constructor
    · intro h
      cases h
      exact ⟨none, none, HoldFound.off.mpr ⟨rfl, rfl⟩, rfl⟩
    · intro h
      obtain ⟨fa, fb, hfound, rfl⟩ := h
      obtain ⟨rfl, rfl⟩ := HoldFound.off.mp hfound
      rfl

end power_hold

section battery_check_skip

theorem runComponent_check : runComponent .eboot size cfw_battery_check_skip s = .ok s' ↔
    ∃ i, sites batteryCheck s.mem (size / 4) = [i] ∧ s' = ⟨write s.mem i check_writes, s.rest⟩ := by
  have hpatches : battery_check_skip_patch pfPatchsetCreate =
      .ok ⟨[oncePatch "battery check" batteryCheck true check_writes id false], true⟩ :=
    pfMaskmatch_good check_good
  have hrun : runComponent .eboot size cfw_battery_check_skip s = (do
      let r ← pfApply size ⟨[oncePatch "battery check" batteryCheck true check_writes id false],
        true⟩ s
      return r.2) := by
    rw [runComponent]
    change ((runPatch .eboot size s ⟨.eboot, battery_check_skip_patch⟩ >>= pure) >>= pure) = _
    rw [bind_pure, bind_pure, runPatch_eq (p := ⟨.eboot, battery_check_skip_patch⟩) rfl hpatches]
  rw [hrun, bind_ok]
  constructor
  · intro h
    obtain ⟨r, happly, hr⟩ := h
    obtain ⟨i, hi, rfl⟩ := (pfApply_once (by decide) check_sound).mp happly
    cases hr
    exact ⟨i, hi, rfl⟩
  · intro h
    obtain ⟨i, hi, rfl⟩ := h
    exact ⟨_, (pfApply_once (by decide) check_sound).mpr ⟨i, hi, rfl⟩, rfl⟩

theorem check_iff (on : Bool) :
    (if on then runComponent .eboot size cfw_battery_check_skip s else .ok s) = .ok s' ↔
      ∃ f, OnceFound batteryCheck on s.mem (size / 4) f ∧
        s' = ⟨fill s.mem check_writes f, s.rest⟩ := by
  cases on with
  | true =>
    constructor
    · intro h
      obtain ⟨i, hi, rfl⟩ := runComponent_check.mp h
      exact ⟨some i, ⟨hi, rfl⟩, rfl⟩
    · intro h
      obtain ⟨f, hfound, rfl⟩ := h
      obtain ⟨i, rfl⟩ := Option.isSome_iff_exists.mp hfound.isSome
      exact runComponent_check.mpr ⟨i, hfound.once, rfl⟩
  | false =>
    constructor
    · intro h
      cases h
      exact ⟨none, ⟨rfl, rfl⟩, rfl⟩
    · intro h
      obtain ⟨f, hfound, rfl⟩ := h
      have hnone : f = none := toList_inj hfound.once.symm
      rw [hnone]
      rfl

end battery_check_skip

theorem handoff_iff (hentry : nk_entry.toNat < CFW_PHYS + CFW_MAX) :
    handoff_patch nk_entry size s = .ok s' ↔
      ∃ i, sites handoffPattern s.mem (size / 4) = [i] ∧
        s' = ⟨write s.mem i (handoff_writes nk_entry), s.rest⟩ := by
  rw [handoff_patch, pfMaskmatch_good handoff_good]
  change (pfApply size ⟨[oncePatch "handoff to nkpf" handoffPattern true (handoff_writes nk_entry)
    id false], true⟩ s >>= _) = _ ↔ _
  rw [bind_ok]
  constructor
  · intro h
    obtain ⟨r, happly, hr⟩ := h
    obtain ⟨i, hi, rfl⟩ := (pfApply_once (by decide) (handoff_sound hentry)).mp happly
    cases hr
    exact ⟨i, hi, rfl⟩
  · intro h
    obtain ⟨i, hi, rfl⟩ := h
    exact ⟨_, (pfApply_once (by decide) (handoff_sound hentry)).mpr ⟨i, hi, rfl⟩, rfl⟩

section image

def Kept (P : List (Entry 32)) (ws : List (Nat × Word)) (Q : List (Entry 32)) : Prop :=
  Separate P Q ∧ Separate (after P ws) Q

instance (P : List (Entry 32)) (ws : List (Nat × Word)) (Q : List (Entry 32)) :
    Decidable (Kept P ws Q) := inferInstanceAs (Decidable (_ ∧ _))

theorem kept_check : Kept hold188 hold188_writes batteryCheck ∧
    Kept hold1582 hold1582_writes batteryCheck := by decide +kernel

theorem kept_handoff : Kept hold188 hold188_writes handoffPattern ∧
    Kept hold1582 hold1582_writes handoffPattern ∧
    Kept batteryCheck check_writes handoffPattern := by decide +kernel

theorem sites_fill (h : Kept P ws Q) (hs : Sound P ws) (hf : ∀ i ∈ f, Stands P m i) :
    sites Q (fill m ws f) n = sites Q m n := by
  cases f with
  | none => rfl
  | some i => exact h.1.sites_eq h.2 (hf i rfl) hs.inside n

/-- What is not enabled has no place. -/
theorem mem_of_found {xs : List Nat} (h : (if on then xs else []) = f.toList) {i : Nat}
    (hi : i ∈ f) : i ∈ xs := by
  have hmem : i ∈ f.toList := Option.mem_toList.mpr hi
  rw [← h] at hmem
  cases on with
  | true => exact hmem
  | false => exact absurd hmem List.not_mem_nil

theorem HoldFound.stands_hold1582 (h : HoldFound on m n fa fb) {j : Nat} (hj : j ∈ fb) :
    Stands CfwEboot.hold1582 m j :=
  (mem_sites.mp (mem_of_found h.hold1582 hj)).2

theorem HoldFound.stands_hold188 (h : HoldFound on m n fa fb) {i : Nat} (hi : i ∈ fa) :
    Stands CfwEboot.hold188 m i ∧ Shown CfwEboot.hold1582 fb i := by
  obtain ⟨hsite, hshown⟩ := List.mem_filter.mp (mem_of_found h.hold188 hi)
  exact ⟨(mem_sites.mp hsite).2, of_decide_eq_true hshown⟩

/-- The later pattern of power_hold still stands where the other one has written. -/
theorem HoldFound.stands_fill (h : HoldFound on m n fa fb) {j : Nat} (hj : j ∈ fb) :
    Stands CfwEboot.hold1582 (fill m hold188_writes fa) j := by
  have hb := h.stands_hold1582 hj
  cases fa with
  | none => exact hb
  | some i =>
    obtain ⟨ha, hshown⟩ := h.stands_hold188 rfl
    have hplaces := places hold_pair ha (hshown j hj) hb
    refine (stands_congr fun k hk => write_outside hold_pair.a.inside ?_).mpr hb
    omega

/-- Power hold moves no place of the other patterns. -/
theorem HoldFound.sites_eq (h : HoldFound on m n fa fb)
    (ha : Kept CfwEboot.hold188 hold188_writes Q)
    (hb : Kept CfwEboot.hold1582 hold1582_writes Q) (k : Nat) :
    sites Q (patched m hold188_writes hold1582_writes fa fb) k = sites Q m k := by
  rw [patched, sites_fill hb hold_pair.b fun j hj => h.stands_fill hj,
    sites_fill ha hold_pair.a fun i hi => (h.stands_hold188 hi).1]

theorem OnceFound.mem (h : OnceFound P on m n f) {i : Nat} (hi : i ∈ f) : i ∈ sites P m n :=
  mem_of_found h.once hi

theorem OnceFound.stands (h : OnceFound P on m n f) {i : Nat} (hi : i ∈ f) : Stands P m i :=
  (mem_sites.mp (h.mem hi)).2

theorem OnceFound.congr (h : OnceFound P on m n f) (hsites : sites P m' n = sites P m n) :
    OnceFound P on m' n f := by
  refine ⟨?_, h.isSome⟩
  rw [hsites]
  exact h.once

end image

section eboot_main

variable {stage : Stage} {c : Component} {cs : List Component} {i : Nat}

theorem cfwRun_on (h : hasStage c stage = true) :
    cfwRun stage size enable i (c :: cs) s =
      ((if enable.getLsbD i then runComponent stage size c s else .ok s) >>=
        cfwRun stage size enable (i + 1) cs) := by
  rw [cfwRun, h]
  cases enable.getLsbD i <;> rfl

theorem cfwRun_off (h : hasStage c stage = false) :
    cfwRun stage size enable i (c :: cs) s = cfwRun stage size enable (i + 1) cs s := by
  rw [cfwRun, h, Bool.not_false, Bool.or_true]
  rfl

variable {rtc_stall_fix_patch : Build} {cfw_nk_resident_install : State Bool → State Bool}
  {irq_patch ioctl_patch : Build} {bytes : Word}

/-- Two of the components have patches of the EBOOT stage. -/
theorem cfwRun_eboot : cfwRun .eboot size enable 0
    (cfw_components rtc_stall_fix_patch cfw_nk_resident_install irq_patch ioctl_patch) s =
      ((if enable.getLsbD 0 then runComponent .eboot size cfw_power_hold s else .ok s) >>= fun s =>
        if enable.getLsbD 1 then runComponent .eboot size cfw_battery_check_skip s else .ok s) := by
  rw [cfw_components, cfwRun_on rfl]
  refine congrArg _ (funext fun s => ?_)
  have hrest : cfwRun .eboot size enable 2 [cfw_rtc_stall_fix rtc_stall_fix_patch,
      cfw_diag cfw_nk_resident_install irq_patch ioctl_patch] = pure := by
    funext s
    rw [cfwRun_off rfl, cfwRun_off rfl]
    rfl
  rw [cfwRun_on rfl, hrest, bind_pure]

/-- The components and the handoff, one after the other, by the places in the image as it was. -/
theorem stages_ok_iff (hentry : nk_entry.toNat < CFW_PHYS + CFW_MAX) :
    (cfwRun .eboot size enable 0
        (cfw_components rtc_stall_fix_patch cfw_nk_resident_install irq_patch ioctl_patch)
        ⟨m, false⟩ >>= handoff_patch nk_entry size) = .ok s ↔
      ∃ p : Plan, p.Found enable m (size / 4) ∧ s = ⟨p.image nk_entry m, enable.getLsbD 0⟩ := by
  rw [cfwRun_eboot, bind_assoc, bind_ok]
  constructor
  · intro h
    obtain ⟨s1, hhold, h⟩ := h
    obtain ⟨s2, hcheck, h⟩ := bind_ok.mp h
    obtain ⟨fa, fb, hold, rfl⟩ := (hold_iff _).mp hhold
    obtain ⟨f, check, rfl⟩ := (check_iff _).mp hcheck
    obtain ⟨i, hi, rfl⟩ := (handoff_iff hentry).mp h
    have hsites := hold.sites_eq kept_handoff.1 kept_handoff.2.1
    rw [sites_fill kept_handoff.2.2 check_sound fun j hj => check.stands hj, hsites] at hi
    have check := check.congr (hold.sites_eq kept_check.1 kept_check.2 _).symm
    exact ⟨⟨fb, fa, f, i⟩, ⟨hold, check, hi⟩, rfl⟩
  · intro h
    obtain ⟨p, hfound, rfl⟩ := h
    have check := hfound.check.congr (hfound.hold.sites_eq kept_check.1 kept_check.2 _)
    have hi := hfound.handoff
    rw [← hfound.hold.sites_eq kept_handoff.1 kept_handoff.2.1,
      ← sites_fill kept_handoff.2.2 check_sound fun j hj => check.stands hj] at hi
    refine ⟨_, (hold_iff _).mpr ⟨p.hold188, p.hold1582, hfound.hold, rfl⟩, bind_ok.mpr ?_⟩
    refine ⟨_, (check_iff _).mpr ⟨p.check, check, rfl⟩, ?_⟩
    exact (handoff_iff hentry).mpr ⟨p.handoff, hi, rfl⟩

theorem ebootMain_eq : ebootMain rtc_stall_fix_patch cfw_nk_resident_install irq_patch ioctl_patch
    nk_entry enable bytes m =
      if enable >>> 4 ≠ 0 then
        .error ("Unknown components 0x" ++ String.ofList (outNum enable.toNat 16 0 ' '))
      else cfwRun .eboot (bytes &&& ~~~3#32).toNat enable 0
          (cfw_components rtc_stall_fix_patch cfw_nk_resident_install irq_patch ioctl_patch)
          ⟨m, false⟩ >>= handoff_patch nk_entry (bytes &&& ~~~3#32).toNat := rfl

/-- The stage accepts just the images in which the patterns of what is enabled have their places,
and then it makes the writes at these places and no others. -/
theorem ebootMain_ok_iff (hentry : nk_entry.toNat < CFW_PHYS + CFW_MAX) :
    ebootMain rtc_stall_fix_patch cfw_nk_resident_install irq_patch ioctl_patch nk_entry enable
        bytes m = .ok s ↔
      enable >>> 4 = 0 ∧ ∃ p : Plan, p.Found enable m ((bytes &&& ~~~3#32).toNat / 4) ∧
        s = ⟨p.image nk_entry m, enable.getLsbD 0⟩ := by
  rw [ebootMain_eq]
  by_cases henable : enable >>> 4 = 0
  · rw [if_neg (not_not.mpr henable)]
    exact (stages_ok_iff hentry).trans (and_iff_right henable).symm
  · rw [if_pos henable]
    constructor
    · intro h
      cases h
    · intro h
      exact absurd h.1 henable

def sampleImage : Image 32 := fun i =>
  (check_match ++ hold188_match ++ handoff_match).getD i 0

def samplePlan : Plan := ⟨none, some 11, some 0, 32⟩

theorem sample_found : samplePlan.Found 3 sampleImage 41 :=
  ⟨⟨by decide +kernel, by decide +kernel, rfl⟩, ⟨by decide +kernel, rfl⟩, by decide +kernel⟩

theorem ebootMain_ok_iff_run : ∃ s,
    ebootMain .ok id .ok .ok 0x30190020 3 164 sampleImage = .ok s ∧
      s.mem 0 = MOV_R0_1 ∧ s.mem 1 = BX_LR ∧ s.mem 13 = MVN_R3_0x200 ∧ s.mem 40 = 0x30190020 := by
  refine ⟨_, (ebootMain_ok_iff (by decide)).mpr ⟨by decide, samplePlan, sample_found, rfl⟩, ?_⟩
  exact ⟨by decide +kernel, by decide +kernel, by decide +kernel, by decide +kernel⟩

end eboot_main

end AipcOs.CfwPlan
