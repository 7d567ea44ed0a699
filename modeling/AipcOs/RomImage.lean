import AipcOs.ByteFrames

/-! cfw/nkpf/romimage.c: where the ROM image that is being patched holds the code of a module. The
reads of a function are the addresses of the bytes it loads. -/
namespace AipcOs.RomImage
open ByteMemory WordBits WordPatch ByteFrames

def NK_VA_OFFSET : Word := 0x50000000
def NK_DDR_VA : Word := 0x80000000
def NK_DDR_END : Word := 0x84000000
def ECEC_MAGIC : Word := 0x43454345
def ROMHDR_BYTES : Word := 0x54
def TOC_BYTES : Word := 32
def O32_BYTES : Word := 24
def SCN_CODE : Word := 0x20
def SCN_COMPRESSED : Word := 0x2000

inductive Panic where
  | noSignature | badRomhdr | badTable | badE32 | badO32 | twoCodeSections | noCodeSection
  | notInPlace
  deriving DecidableEq

structure Range where
  va : Word
  size : Word
  cacheable_base : Word
  deriving DecidableEq

inductive Outcome where
  | panic (p : Panic)
  | found (range : Range)
  | absent
  deriving DecidableEq

structure Run where
  outcome : Outcome
  reads : List Word
  deriving DecidableEq

def Run.after (reads : List Word) (r : Run) : Run := { r with reads := reads ++ r.reads }

def nkStaticVa (va bytes : Word) : Bool :=
  NK_DDR_VA ≤ va ∧ va < NK_DDR_END ∧ bytes ≤ NK_DDR_END - va

def nkPtr (va : Word) : Word := va - NK_VA_OFFSET

def wordReads (p : Word) : List Word := (List.range 4).map fun k => wordOf p + BitVec.ofNat 32 k

/-- A halfword load ignores the low address bit. -/
def load16 (m : Mem) (p : Word) : Word := (m ((p &&& ~~~1) + 1) ++ m (p &&& ~~~1)).setWidth 32

def halfReads (p : Word) : List Word := [p &&& ~~~1, (p &&& ~~~1) + 1]

def lower (c : Byte) : Byte := if 0x41 ≤ c ∧ c ≤ 0x5A then c + 0x20 else c

def nameMatches (m : Mem) : List Byte → (s : Word) → Bool × List Word
  | [], s => (m s = 0, [s])
  | c :: name, s =>
    if lower (m s) ≠ c then (false, [s])
    else ((nameMatches m name (s + 1)).1, s :: (nameMatches m name (s + 1)).2)

def nameIs (m : Mem) (va : Word) (name : List Byte) : Bool × List Word :=
  if nkStaticVa va 1 then nameMatches m name (nkPtr va) else (false, [])

def vsize (m : Mem) (o32 : Word) : Word := load32 m o32
def psize (m : Mem) (o32 : Word) : Word := load32 m (o32 + 8)
def dataptr (m : Mem) (o32 : Word) : Word := load32 m (o32 + 12)
def realaddr (m : Mem) (o32 : Word) : Word := load32 m (o32 + 16)
def flags (m : Mem) (o32 : Word) : Word := load32 m (o32 + 20)

def sectionReads (o32 : Word) : List Word :=
  wordReads o32 ++ wordReads (o32 + 8) ++ wordReads (o32 + 12) ++ wordReads (o32 + 16) ++
    wordReads (o32 + 20)

def codeSection (m : Mem) :
    Nat → (o32 : Word) → (code : Option Word) → Except Panic (Option Word) × List Word
  | 0, _, code => (.ok code, [])
  | left + 1, o32, code =>
    if flags m o32 &&& SCN_CODE = 0 then
      let r := codeSection m left (o32 + O32_BYTES) code
      (r.1, wordReads (o32 + 20) ++ r.2)
    else if code.isSome then (.error .twoCodeSections, wordReads (o32 + 20))
    else
      let r := codeSection m left (o32 + O32_BYTES) (some o32)
      (r.1, wordReads (o32 + 20) ++ r.2)

def sectionRange (m : Mem) (code : Word) : Outcome :=
  if flags m code &&& SCN_COMPRESSED ≠ 0 ∨ psize m code < vsize m code ∨
      nkStaticVa (dataptr m code) (vsize m code) = false then .panic .notInPlace
  else .found ⟨realaddr m code, vsize m code &&& ~~~3, nkPtr (dataptr m code)⟩

def moduleRange (m : Mem) (toc : Word) : Run :=
  let e32 := load32 m (toc + 20)
  let o32 := load32 m (toc + 24)
  let nobj := load16 m (nkPtr e32)
  if nkStaticVa e32 2 = false then ⟨.panic .badE32, wordReads (toc + 20)⟩
  else if 32 < nobj ∨ nkStaticVa o32 (nobj * O32_BYTES) = false then
    ⟨.panic .badO32, wordReads (toc + 20) ++ halfReads (nkPtr e32) ++ wordReads (toc + 24)⟩
  else
    let code := codeSection m nobj.toNat (nkPtr o32) none
    let reads :=
      wordReads (toc + 20) ++ halfReads (nkPtr e32) ++ wordReads (toc + 24) ++ code.2
    match code.1 with
    | .error p => ⟨.panic p, reads⟩
    | .ok none => ⟨.panic .noCodeSection, reads⟩
    | .ok (some code) => ⟨sectionRange m code, reads ++ sectionReads code⟩

def walk (m : Mem) (module : List Byte) : Nat → (toc : Word) → Run
  | 0, _ => ⟨.absent, []⟩
  | left + 1, toc =>
    let is := nameIs m (load32 m (toc + 16)) module
    let rest := if is.1 then moduleRange m toc else walk m module left (toc + TOC_BYTES)
    rest.after (wordReads (toc + 16) ++ is.2)

/-- romhdr, and the check of the table behind it: the TOC and its number of entries. -/
def romToc (m : Mem) : Except Panic (Word × Nat) × List Word :=
  let nk := nkPtr 0x80200000
  let hdr := load32 m (nk + 0x44)
  let n := load32 m (nkPtr hdr + 16)
  let toc_va := nkPtr hdr + NK_VA_OFFSET + ROMHDR_BYTES
  let reads := wordReads (nk + 0x44) ++ wordReads (nk + 0x40)
  if load32 m (nk + 0x40) ≠ ECEC_MAGIC then (.error .noSignature, reads)
  else if nkStaticVa hdr ROMHDR_BYTES = false then (.error .badRomhdr, reads)
  else if 512 < n ∨ nkStaticVa toc_va (n * TOC_BYTES) = false then
    (.error .badTable, reads ++ wordReads (nkPtr hdr + 16))
  else (.ok (nkPtr toc_va, n.toNat), reads ++ wordReads (nkPtr hdr + 16))

def romCodeRange (m : Mem) (module : List Byte) : Run :=
  match (romToc m).1 with
  | .error p => ⟨.panic p, (romToc m).2⟩
  | .ok (toc, n) => (walk m module n toc).after (romToc m).2

def InDdr (p : Word) : Prop := NK_DDR_VA ≤ p + NK_VA_OFFSET ∧ p + NK_VA_OFFSET < NK_DDR_END

instance (p : Word) : Decidable (InDdr p) := by unfold InDdr; infer_instance

/-- A module name as the callers give it. -/
structure ModuleName where
  bytes : List Byte
  lower : ∀ c ∈ bytes, c ≠ 0 ∧ lower c = c

structure HasName (m : Mem) (module : ModuleName) (va : Word) : Prop where
  start : nkStaticVa va 1
  chars : ∀ i (hi : i < module.bytes.length),
    lower (m (nkPtr va + BitVec.ofNat 32 i)) = lower module.bytes[i]
  stop : m (nkPtr va + BitVec.ofNat 32 module.bytes.length) = 0

/-- What the window holds from `va` on is the start of the name, case aside, and no NUL. -/
def RunsOff (m : Mem) (module : ModuleName) (va : Word) : Prop :=
  nkStaticVa va 1 ∧ va.toNat + module.bytes.length ≥ NK_DDR_END.toNat ∧
    ∀ i (hi : i < module.bytes.length), va.toNat + i < NK_DDR_END.toNat →
      lower (m (nkPtr va + BitVec.ofNat 32 i)) = lower module.bytes[i]

variable {m : Mem} {module : ModuleName} {va p : Word}

theorem nkStaticVa_iff (va bytes : Word) :
    nkStaticVa va bytes = true ↔ 0x80000000 ≤ va.toNat ∧ va.toNat < 0x84000000 ∧
      va.toNat + bytes.toNat ≤ 0x84000000 := by
  rw [nkStaticVa, decide_eq_true_eq]
  simp only [NK_DDR_VA, NK_DDR_END]
  bv_omega

theorem inDdr_iff (p : Word) : InDdr p ↔ 0x30000000 ≤ p.toNat ∧ p.toNat < 0x34000000 := by
  have hlo : NK_DDR_VA ≤ p + NK_VA_OFFSET ↔ 0x80000000 ≤ (p + NK_VA_OFFSET).toNat := Iff.rfl
  have hhi : p + NK_VA_OFFSET < NK_DDR_END ↔ (p + NK_VA_OFFSET).toNat < 0x84000000 := Iff.rfl
  have hlt := p.isLt
  have hadd : (p + NK_VA_OFFSET).toNat = (p.toNat + 0x50000000) % 2 ^ 32 := BitVec.toNat_add _ _
  rw [InDdr, hlo, hhi, hadd]
  omega

theorem nkPtr_toNat (h : 0x80000000 ≤ va.toNat) : (nkPtr va).toNat = va.toNat - 0x50000000 := by
  have hlt := va.isLt
  rw [nkPtr, BitVec.toNat_sub]
  change (2 ^ 32 - 0x50000000 + va.toNat) % 2 ^ 32 = _
  omega

theorem wordReads_inDdr (hlo : 0x30000000 ≤ p.toNat) (hhi : p.toNat + 4 ≤ 0x34000000) :
    ∀ x ∈ wordReads p, InDdr x := by
  have hword := wordOf_toNat p
  intro x hx
  obtain ⟨k, hk, rfl⟩ := List.mem_map.mp hx
  have hlt := List.mem_range.mp hk
  rw [inDdr_iff]
  bv_omega

theorem even_add_low (p : Word) : (p &&& ~~~1) + (p &&& 1) = p := by
  have hdisj : (p &&& ~~~1) &&& (p &&& 1) = 0#32 := by
    apply BitVec.eq_of_getLsbD_eq
    intro i hi
    simp only [BitVec.getLsbD_and, BitVec.getLsbD_not]
    cases (1 : Word).getLsbD i <;> simp
  rw [BitVec.add_eq_or_of_and_eq_zero _ _ hdisj]
  apply BitVec.eq_of_getLsbD_eq
  intro i hi
  simp only [BitVec.getLsbD_or, BitVec.getLsbD_and, BitVec.getLsbD_not]
  cases (1 : Word).getLsbD i <;> simp [hi]

theorem halfReads_inDdr (hlo : 0x30000000 ≤ p.toNat) (hhi : p.toNat + 2 ≤ 0x34000000) :
    ∀ x ∈ halfReads p, InDdr x := by
  have hlow : (p &&& 1).toNat = p.toNat % 2 := by
    rw [BitVec.toNat_and]
    exact Nat.and_two_pow_sub_one_eq_mod p.toNat 1
  have hsum := congrArg BitVec.toNat (even_add_low p)
  have hle : (p &&& ~~~1).toNat ≤ p.toNat := by
    rw [BitVec.toNat_and]
    exact Nat.and_le_left
  rw [BitVec.toNat_add, hlow] at hsum
  intro x hx
  rw [inDdr_iff]
  obtain rfl | hx := List.mem_cons.mp hx
  · omega
  · obtain rfl := List.mem_singleton.mp hx
    bv_omega

def Leaves (m : Mem) (name : List Byte) (p : Word) : Prop :=
  0x34000000 ≤ p.toNat + name.length ∧ ∀ i (hi : i < name.length), p.toNat + i < 0x34000000 →
    lower (m (p + BitVec.ofNat 32 i)) = name[i]

theorem leaves_cons {c : Byte} {name : List Byte} (hp : p.toNat < 0x34000000) :
    Leaves m (c :: name) p ↔ lower (m p) = c ∧ Leaves m name (p + 1) := by
  have hsucc : (p + 1).toNat = p.toNat + 1 := by bv_omega
  constructor
  · intro hboth
    obtain ⟨hlen, hmatch⟩ := hboth
    have hhead := hmatch 0 (Nat.zero_lt_succ _) hp
    rw [BitVec.add_zero] at hhead
    refine ⟨hhead, ?_, fun i hi hin => ?_⟩
    · rw [List.length_cons] at hlen
      omega
    · have hnext := hmatch (i + 1) (Nat.succ_lt_succ hi) (by omega)
      rw [add_one_ofNat]
      exact hnext
  · intro hboth
    obtain ⟨hhead, hlen, hmatch⟩ := hboth
    refine ⟨by rw [List.length_cons]; omega, fun i hi hin => ?_⟩
    cases i with
    | zero =>
      rw [BitVec.add_zero]
      exact hhead
    | succ i =>
      have hnext := hmatch i (Nat.lt_of_succ_lt_succ hi) (by omega)
      rw [add_one_ofNat] at hnext
      exact hnext

theorem mem_nameMatches (m : Mem) (name : List Byte) (p : Word) : p ∈ (nameMatches m name p).2 := by
  cases name with
  | nil => exact List.mem_singleton_self p
  | cons c name =>
    rw [nameMatches]
    split
    · exact List.mem_singleton_self p
    · exact List.mem_cons_self

theorem nameMatches_inDdr (name : List Byte) (hp : InDdr p) :
    (∀ x ∈ (nameMatches m name p).2, InDdr x) ↔ ¬Leaves m name p := by
  induction name generalizing p with
  | nil =>
    have hin := (inDdr_iff p).mp hp
    refine ⟨fun _ h => ?_, fun _ x hx => ?_⟩
    · have hend : 0x34000000 ≤ p.toNat + 0 := h.1
      omega
    · rwa [List.mem_singleton.mp hx]
  | cons c name ih =>
    obtain ⟨hlo, hhi⟩ := (inDdr_iff p).mp hp
    have hsucc : (p + 1).toNat = p.toNat + 1 := by bv_omega
    rw [leaves_cons hhi, nameMatches]
    by_cases hc : lower (m p) = c
    · rw [if_neg (not_not.mpr hc)]
      simp only [List.forall_mem_cons, hp, true_and, hc]
      by_cases hend : p.toNat + 1 < 0x34000000
      · exact ih ((inDdr_iff _).mpr (by omega))
      · have hout : ¬InDdr (p + 1) := fun h => by
          have hin := (inDdr_iff _).mp h
          omega
        have hleaves : Leaves m name (p + 1) := ⟨by omega, fun i _ hi => by omega⟩
        exact ⟨fun h => absurd (h _ (mem_nameMatches m name _)) hout, fun h => absurd hleaves h⟩
    · rw [if_pos hc]
      refine ⟨fun _ h => hc h.1, fun _ x hx => ?_⟩
      rwa [List.mem_singleton.mp hx]

def entry (p : Word) (size k : Nat) : Word := p + BitVec.ofNat 32 (size * k)

theorem entry_zero (size : Nat) : entry p size 0 = p := BitVec.add_zero p

theorem entry_succ (size k : Nat) :
    entry (p + BitVec.ofNat 32 size) size k = entry p size (k + 1) := by
  rw [entry, entry, add_ofNat_add, Nat.mul_succ, Nat.add_comm]

def codeSections (m : Mem) (o32 : Word) (n : Nat) : List Word :=
  ((List.range n).map (entry o32 24)).filter fun p => flags m p &&& SCN_CODE ≠ 0

def TableIn (p : Word) (size n : Nat) : Prop :=
  0x30000000 ≤ p.toNat ∧ p.toNat + size * n ≤ 0x34000000

theorem TableIn.tail {size n : Nat} (h : TableIn p size (n + 1)) :
    TableIn (p + BitVec.ofNat 32 size) size n := by
  obtain ⟨hlo, hhi⟩ := h
  rw [Nat.mul_succ] at hhi
  constructor
  · bv_omega
  · bv_omega

theorem TableIn.entry_toNat {size n k : Nat} (h : TableIn p size n) (hk : k < n) :
    0x30000000 ≤ (entry p size k).toNat ∧ (entry p size k).toNat + size ≤ 0x34000000 := by
  obtain ⟨hlo, hhi⟩ := h
  have hmul := Nat.mul_le_mul_left size (Nat.succ_le_of_lt hk)
  rw [Nat.mul_succ] at hmul
  rw [entry]
  generalize size * k = off at hmul ⊢
  constructor
  · bv_omega
  · bv_omega

theorem fieldReads_inDdr {size off : Nat} (hlo : 0x30000000 ≤ p.toNat)
    (hhi : p.toNat + size ≤ 0x34000000) (hoff : off + 4 ≤ size) :
    ∀ x ∈ wordReads (p + BitVec.ofNat 32 off), InDdr x :=
  wordReads_inDdr (by bv_omega) (by bv_omega)

theorem forall_mem_append {P : Word → Prop} {xs ys : List Word} (hx : ∀ x ∈ xs, P x)
    (hy : ∀ y ∈ ys, P y) : ∀ x ∈ xs ++ ys, P x := by
  intro x hmem
  obtain h | h := List.mem_append.mp hmem
  · exact hx x h
  · exact hy x h

theorem codeSection_inDdr {left : Nat} {code : Option Word} (h : TableIn p 24 left) :
    ∀ x ∈ (codeSection m left p code).2, InDdr x := by
  induction left generalizing p code with
  | zero => exact fun x hx => absurd hx List.not_mem_nil
  | succ left ih =>
    have hfirst := h.entry_toNat (Nat.zero_lt_succ left)
    rw [entry_zero] at hfirst
    have hflags : ∀ x ∈ wordReads (p + 20), InDdr x :=
      fieldReads_inDdr hfirst.1 hfirst.2 (by decide : 20 + 4 ≤ 24)
    rw [codeSection]
    split
    · exact forall_mem_append hflags (ih h.tail)
    · split
      · exact hflags
      · exact forall_mem_append hflags (ih h.tail)

theorem codeSections_succ (m : Mem) (p : Word) (n : Nat) :
    codeSections m p (n + 1) =
      (if flags m p &&& SCN_CODE ≠ 0 then [p] else []) ++
        codeSections m (p + BitVec.ofNat 32 24) n := by
  have htail : (List.range n).map (fun k => entry p 24 (k + 1)) =
      (List.range n).map (entry (p + BitVec.ofNat 32 24) 24) :=
    List.map_congr_left fun k _ => (entry_succ 24 k).symm
  rw [codeSections, List.range_succ_eq_map, List.map_cons, List.map_map, entry_zero,
    List.filter_cons]
  change _ = _ ++ ((List.range n).map (entry (p + BitVec.ofNat 32 24) 24)).filter _
  rw [← htail]
  by_cases hcode : flags m p &&& SCN_CODE ≠ 0
  · rw [if_pos (decide_eq_true hcode), if_pos hcode]
    rfl
  · rw [if_neg (by simpa using hcode), if_neg hcode]
    rfl

/-- The loop ends with the only code section, if it ends. -/
theorem codeSection_ok {left : Nat} {code r : Option Word}
    (h : (codeSection m left p code).1 = .ok r) :
    code.toList ++ codeSections m p left = r.toList := by
  induction left generalizing p code with
  | zero =>
    rw [codeSection] at h
    cases h
    exact List.append_nil _
  | succ left ih =>
    rw [codeSections_succ]
    rw [codeSection] at h
    split at h
    · rename_i hdata
      rw [if_neg (not_not.mpr hdata)]
      exact ih h
    · rename_i hcode
      rw [if_pos hcode]
      cases code with
      | some c =>
        rw [Option.isSome_some, if_pos rfl] at h
        cases h
      | none => exact ih h

structure InPlaceCode (m : Mem) (toc : Word) (r : Range) (code : Word) : Prop where
  only : codeSections m (nkPtr (load32 m (toc + 24)))
    (load16 m (nkPtr (load32 m (toc + 20)))).toNat = [code]
  uncompressed : flags m code &&& SCN_COMPRESSED = 0
  whole : vsize m code ≤ psize m code
  range : r = ⟨realaddr m code, vsize m code &&& ~~~3, nkPtr (dataptr m code)⟩
  size : r.size.toNat % 4 = 0 ∧ r.size ≤ vsize m code
  data : ∀ x : Word, (x - r.cacheable_base).toNat < r.size.toNat → InDdr x

theorem sectionRange_found {code : Word} {r : Range} (h : sectionRange m code = .found r) :
    flags m code &&& SCN_COMPRESSED = 0 ∧ vsize m code ≤ psize m code ∧
      nkStaticVa (dataptr m code) (vsize m code) = true ∧
      r = ⟨realaddr m code, vsize m code &&& ~~~3, nkPtr (dataptr m code)⟩ := by
  rw [sectionRange] at h
  split at h
  · cases h
  · rename_i hgood
    rw [not_or, not_or, not_not, Bool.not_eq_false] at hgood
    cases h
    exact ⟨hgood.1, BitVec.not_lt.mp hgood.2.1, hgood.2.2, rfl⟩

theorem inPlaceCode {toc code : Word} {r : Range}
    (honly : codeSections m (nkPtr (load32 m (toc + 24)))
      (load16 m (nkPtr (load32 m (toc + 20)))).toNat = [code])
    (h : sectionRange m code = .found r) : InPlaceCode m toc r code := by
  obtain ⟨huncompressed, hwhole, hva, rfl⟩ := sectionRange_found h
  have hword := wordOf_toNat (vsize m code)
  have haligned := (aligned_iff _).mp (wordOf_aligned (vsize m code))
  have hsize : (vsize m code &&& ~~~3).toNat ≤ (vsize m code).toNat := by
    change (wordOf (vsize m code)).toNat ≤ _
    omega
  refine ⟨honly, huncompressed, hwhole, rfl, ⟨haligned, hsize⟩, fun x hx => ?_⟩
  obtain ⟨hlo, hhi, hend⟩ := (nkStaticVa_iff _ _).mp hva
  have hptr := nkPtr_toNat hlo
  rw [inDdr_iff]
  change (x - nkPtr (dataptr m code)).toNat < (vsize m code &&& ~~~3).toNat at hx
  bv_omega

theorem sectionReads_inDdr {code : Word} (hlo : 0x30000000 ≤ code.toNat)
    (hhi : code.toNat + 24 ≤ 0x34000000) : ∀ x ∈ sectionReads code, InDdr x := by
  have hfield (off : Nat) (hoff : off + 4 ≤ 24) :
      ∀ x ∈ wordReads (code + BitVec.ofNat 32 off), InDdr x := fieldReads_inDdr hlo hhi hoff
  have hfirst := hfield 0 (by decide)
  rw [BitVec.add_zero] at hfirst
  exact forall_mem_append (forall_mem_append (forall_mem_append (forall_mem_append hfirst
    (hfield 8 (by decide))) (hfield 12 (by decide))) (hfield 16 (by decide))) (hfield 20 (by decide))

theorem codeSections_mem {o32 code : Word} {n : Nat} (h : codeSections m o32 n = [code]) :
    ∃ k < n, code = entry o32 24 k := by
  have hmem : code ∈ codeSections m o32 n := by
    rw [h]
    exact List.mem_singleton_self code
  obtain ⟨k, hk, rfl⟩ := List.mem_map.mp (List.mem_of_mem_filter hmem)
  exact ⟨k, List.mem_range.mp hk, rfl⟩

/-- A checked module table. -/
theorem tableIn_of_static {size n : Word} (hva : nkStaticVa va (n * size) = true)
    (hmul : n.toNat * size.toNat < 2 ^ 32) : TableIn (nkPtr va) size.toNat n.toNat := by
  obtain ⟨hlo, hhi, hend⟩ := (nkStaticVa_iff _ _).mp hva
  have hptr := nkPtr_toNat hlo
  rw [mul_toNat rfl rfl hmul] at hend
  rw [TableIn, hptr, Nat.mul_comm]
  constructor <;> omega

structure ModuleSpec (m : Mem) (toc : Word) (r : Run) : Prop where
  reads : ∀ x ∈ r.reads, InDdr x
  found : ∀ range, r.outcome = .found range → ∃ code, InPlaceCode m toc range code
  present : r.outcome ≠ .absent

theorem moduleRange_spec {toc : Word} (hlo : 0x30000000 ≤ toc.toNat)
    (hhi : toc.toNat + 32 ≤ 0x34000000) : ModuleSpec m toc (moduleRange m toc) := by
  have he32 : ∀ x ∈ wordReads (toc + 20), InDdr x :=
    fieldReads_inDdr hlo hhi (by decide : 20 + 4 ≤ 32)
  have ho32 : ∀ x ∈ wordReads (toc + 24), InDdr x :=
    fieldReads_inDdr hlo hhi (by decide : 24 + 4 ≤ 32)
  rw [moduleRange]
  dsimp only
  split
  · exact ⟨he32, fun _ h => (by cases h), fun h => (by cases h)⟩
  · rename_i hstatic
    rw [Bool.not_eq_false] at hstatic
    obtain ⟨helo, hehi, heend⟩ := (nkStaticVa_iff _ _).mp hstatic
    have heptr := nkPtr_toNat helo
    have hhalf : ∀ x ∈ halfReads (nkPtr (load32 m (toc + 20))), InDdr x := by
      change _ + 2 ≤ _ at heend
      exact halfReads_inDdr (by omega) (by omega)
    have hreads := forall_mem_append (forall_mem_append he32 hhalf) ho32
    split
    · exact ⟨hreads, fun _ h => (by cases h), fun h => (by cases h)⟩
    · rename_i htable
      rw [not_or, Bool.not_eq_false] at htable
      have hfew : (load16 m (nkPtr (load32 m (toc + 20)))).toNat ≤ 32 := BitVec.not_lt.mp htable.1
      have hin : TableIn (nkPtr (load32 m (toc + 24))) 24 _ :=
        tableIn_of_static htable.2 (by change _ * 24 < _; omega)
      have hsections : ∀ x ∈ (codeSection m (load16 m (nkPtr (load32 m (toc + 20)))).toNat
          (nkPtr (load32 m (toc + 24))) none).2, InDdr x := codeSection_inDdr hin
      have hcodes := forall_mem_append hreads hsections
      cases hcode : (codeSection m (load16 m (nkPtr (load32 m (toc + 20)))).toNat
          (nkPtr (load32 m (toc + 24))) none).1 with
      | error p => exact ⟨hcodes, fun _ h => (by cases h), fun h => (by cases h)⟩
      | ok found =>
        have honly := codeSection_ok hcode
        cases found with
        | none => exact ⟨hcodes, fun _ h => (by cases h), fun h => (by cases h)⟩
        | some code =>
          obtain ⟨k, hk, rfl⟩ := codeSections_mem honly
          obtain ⟨hclo, hchi⟩ := hin.entry_toNat hk
          refine ⟨forall_mem_append hcodes (sectionReads_inDdr hclo hchi), fun range h => ?_, ?_⟩
          · exact ⟨_, inPlaceCode honly h⟩
          · dsimp only
            rw [sectionRange]
            split <;> exact fun h => by cases h

theorem RunsOff.iff_leaves (hva : nkStaticVa va 1 = true) :
    RunsOff m module va ↔ Leaves m module.bytes (nkPtr va) := by
  obtain ⟨hlo, hhi, hend⟩ := (nkStaticVa_iff _ _).mp hva
  have hptr := nkPtr_toNat hlo
  have hend : NK_DDR_END.toNat = 0x84000000 := rfl
  rw [RunsOff, Leaves, hptr, hend]
  constructor
  · intro hboth
    obtain ⟨-, hlen, hmatch⟩ := hboth
    refine ⟨by omega, fun i hi hin => ?_⟩
    rw [hmatch i hi (by omega)]
    exact (module.lower _ (List.getElem_mem hi)).2
  · intro hboth
    obtain ⟨hlen, hmatch⟩ := hboth
    refine ⟨hva, by omega, fun i hi hin => ?_⟩
    rw [hmatch i hi (by omega)]
    exact (module.lower _ (List.getElem_mem hi)).2.symm

theorem nameIs_inDdr (m : Mem) (va : Word) (module : ModuleName) :
    (∀ x ∈ (nameIs m va module.bytes).2, InDdr x) ↔ ¬RunsOff m module va := by
  rw [nameIs]
  split
  · rename_i hva
    have hin : InDdr (nkPtr va) := by
      obtain ⟨hlo, hhi, -⟩ := (nkStaticVa_iff _ _).mp hva
      have hptr := nkPtr_toNat hlo
      rw [inDdr_iff]
      omega
    rw [RunsOff.iff_leaves hva]
    exact nameMatches_inDdr module.bytes hin
  · rename_i hva
    exact ⟨fun _ h => hva h.1, fun _ x hx => absurd hx List.not_mem_nil⟩

theorem nameMatches_iff {name : List Byte} (hname : ∀ c ∈ name, lower c = c) :
    (nameMatches m name p).1 = true ↔
      (∀ i (hi : i < name.length), lower (m (p + BitVec.ofNat 32 i)) = lower name[i]) ∧
        m (p + BitVec.ofNat 32 name.length) = 0 := by
  induction name generalizing p with
  | nil => simp [nameMatches]
  | cons c name ih =>
    have hc := hname c List.mem_cons_self
    have hrest := ih (p := p + 1) fun d hd => hname d (List.mem_cons_of_mem _ hd)
    rw [nameMatches]
    by_cases hhead : lower (m p) = c
    · rw [if_neg (not_not.mpr hhead), hrest, add_one_ofNat]
      refine and_congr_left fun _ => ⟨fun h i hi => ?_, fun h i hi => ?_⟩
      · cases i with
        | zero =>
          rw [BitVec.add_zero, hhead]
          exact hc.symm
        | succ i =>
          have hnext := h i (Nat.lt_of_succ_lt_succ hi)
          rwa [add_one_ofNat] at hnext
      · have hnext := h (i + 1) (Nat.succ_lt_succ hi)
        rw [add_one_ofNat]
        exact hnext
    · rw [if_pos hhead]
      refine ⟨fun h => (by cases h), fun h => absurd ?_ hhead⟩
      have hfirst := h.1 0 (Nat.zero_lt_succ _)
      rw [BitVec.add_zero] at hfirst
      exact hfirst.trans hc

theorem nameIs_iff (m : Mem) (va : Word) (module : ModuleName) :
    (nameIs m va module.bytes).1 = true ↔ HasName m module va := by
  have hmatch := nameMatches_iff (m := m) (p := nkPtr va) fun c hc => (module.lower c hc).2
  rw [nameIs]
  split
  · rename_i hva
    rw [hmatch]
    exact ⟨fun h => ⟨hva, h.1, h.2⟩, fun h => ⟨h.chars, h.stop⟩⟩
  · rename_i hva
    exact ⟨fun h => (by cases h), fun h => absurd h.start hva⟩

def entryName (m : Mem) (toc : Word) (i : Nat) : Word := load32 m (entry toc 32 i + 16)

theorem entryName_succ (m : Mem) (toc : Word) (i : Nat) :
    entryName m (toc + BitVec.ofNat 32 32) i = entryName m toc (i + 1) := by
  rw [entryName, entryName, entry_succ]

def Examined (m : Mem) (module : ModuleName) (toc : Word) (n i : Nat) : Prop :=
  i < n ∧ ∀ j < i, ¬HasName m module (entryName m toc j)

structure WalkSpec (m : Mem) (module : ModuleName) (toc : Word) (n : Nat) (r : Run) : Prop where
  reads : (∀ x ∈ r.reads, InDdr x) ↔
    ∀ i, Examined m module toc n i → ¬RunsOff m module (entryName m toc i)
  found : ∀ range, r.outcome = .found range → ∃ i code, Examined m module toc n i ∧
    HasName m module (entryName m toc i) ∧ InPlaceCode m (entry toc 32 i) range code
  absent : r.outcome = .absent → ∀ i < n, ¬HasName m module (entryName m toc i)

theorem examined_zero {toc : Word} {n : Nat} (hn : 0 < n) : Examined m module toc n 0 :=
  ⟨hn, fun j hj => absurd hj (Nat.not_lt_zero j)⟩

theorem examined_succ {toc : Word} {n i : Nat} (h0 : ¬HasName m module (entryName m toc 0)) :
    Examined m module toc (n + 1) (i + 1) ↔
      Examined m module (toc + BitVec.ofNat 32 32) n i := by
  constructor
  · intro hboth
    obtain ⟨hi, hnone⟩ := hboth
    refine ⟨Nat.lt_of_succ_lt_succ hi, fun j hj => ?_⟩
    rw [entryName_succ]
    exact hnone (j + 1) (Nat.succ_lt_succ hj)
  · intro hboth
    obtain ⟨hi, hnone⟩ := hboth
    refine ⟨Nat.succ_lt_succ hi, fun j hj => ?_⟩
    cases j with
    | zero => exact h0
    | succ j =>
      rw [← entryName_succ]
      exact hnone j (Nat.lt_of_succ_lt_succ hj)

/-- What the walk reads at its first entry stays inside unless the name runs off the end. -/
theorem entryReads_inDdr {toc : Word} {n : Nat} (h : TableIn toc 32 (n + 1)) (rest : Run) :
    (∀ x ∈ (rest.after (wordReads (toc + 16) ++
      (nameIs m (entryName m toc 0) module.bytes).2)).reads, InDdr x) ↔
        ¬RunsOff m module (entryName m toc 0) ∧ ∀ x ∈ rest.reads, InDdr x := by
  have hfirst := h.entry_toNat (Nat.zero_lt_succ n)
  rw [entry_zero] at hfirst
  have htoc : ∀ x ∈ wordReads (toc + 16), InDdr x :=
    fieldReads_inDdr hfirst.1 hfirst.2 (by decide : 16 + 4 ≤ 32)
  simp only [Run.after, List.forall_mem_append, nameIs_inDdr]
  exact ⟨fun hall => ⟨hall.1.2, hall.2⟩, fun hall => ⟨⟨htoc, hall.1⟩, hall.2⟩⟩

theorem walkSpec_here {toc : Word} {n : Nat} (h : TableIn toc 32 (n + 1))
    (hhere : HasName m module (entryName m toc 0)) :
    WalkSpec m module toc (n + 1) ((moduleRange m toc).after (wordReads (toc + 16) ++
      (nameIs m (entryName m toc 0) module.bytes).2)) := by
  have hfirst := h.entry_toNat (Nat.zero_lt_succ n)
  rw [entry_zero] at hfirst
  have hspec : ModuleSpec m toc (moduleRange m toc) := moduleRange_spec hfirst.1 hfirst.2
  refine ⟨?_, fun range hr => ?_, fun hr => absurd hr hspec.present⟩
  · rw [entryReads_inDdr h]
    refine ⟨fun hall i hi => ?_, fun hall =>
      ⟨hall 0 (examined_zero (Nat.zero_lt_succ n)), hspec.reads⟩⟩
    cases i with
    | zero => exact hall.1
    | succ i => exact absurd hhere (hi.2 0 (Nat.zero_lt_succ i))
  · obtain ⟨code, hcode⟩ := hspec.found range hr
    refine ⟨0, code, examined_zero (Nat.zero_lt_succ n), hhere, ?_⟩
    rwa [entry_zero]

theorem walkSpec_next {toc : Word} {n : Nat} (h : TableIn toc 32 (n + 1))
    (hnot : ¬HasName m module (entryName m toc 0)) {rest : Run}
    (hspec : WalkSpec m module (toc + BitVec.ofNat 32 32) n rest) :
    WalkSpec m module toc (n + 1) (rest.after (wordReads (toc + 16) ++
      (nameIs m (entryName m toc 0) module.bytes).2)) := by
  refine ⟨?_, fun range hr => ?_, fun hr i hi => ?_⟩
  · rw [entryReads_inDdr h, hspec.reads]
    constructor
    · intro ⟨hzero, hrest⟩ i hi
      cases i with
      | zero => exact hzero
      | succ i =>
        rw [← entryName_succ]
        exact hrest i ((examined_succ hnot).mp hi)
    · intro hall
      refine ⟨hall 0 (examined_zero (Nat.zero_lt_succ n)), fun i hi => ?_⟩
      rw [entryName_succ]
      exact hall (i + 1) ((examined_succ hnot).mpr hi)
  · obtain ⟨i, code, hi, hhas, hcode⟩ := hspec.found range hr
    rw [entryName_succ] at hhas
    refine ⟨i + 1, code, (examined_succ hnot).mpr hi, hhas, ?_⟩
    rw [← entry_succ]
    exact hcode
  · cases i with
    | zero => exact hnot
    | succ i =>
      rw [← entryName_succ]
      exact hspec.absent hr i (Nat.lt_of_succ_lt_succ hi)

theorem walk_spec {toc : Word} {n : Nat} (h : TableIn toc 32 n) :
    WalkSpec m module toc n (walk m module.bytes n toc) := by
  induction n generalizing toc with
  | zero =>
    refine ⟨⟨fun _ i hi => absurd hi.1 (Nat.not_lt_zero i), fun _ x hx => ?_⟩, fun _ hr => ?_,
      fun _ i hi => absurd hi (Nat.not_lt_zero i)⟩
    · exact absurd hx List.not_mem_nil
    · cases hr
  | succ n ih =>
    have hname : entryName m toc 0 = load32 m (toc + 16) := by rw [entryName, entry_zero]
    have his := nameIs_iff m (entryName m toc 0) module
    rw [walk, ← hname]
    by_cases hhere : HasName m module (entryName m toc 0)
    · rw [if_pos (his.mpr hhere)]
      exact walkSpec_here h hhere
    · rw [if_neg fun hb => hhere (his.mp hb)]
      exact walkSpec_next h hhere (ih h.tail)

theorem romToc_inDdr (m : Mem) : ∀ x ∈ (romToc m).2, InDdr x := by
  have hmagic : ∀ x ∈ wordReads (nkPtr 0x80200000 + 0x44) ++ wordReads (nkPtr 0x80200000 + 0x40),
      InDdr x :=
    forall_mem_append (wordReads_inDdr (by decide) (by decide))
      (wordReads_inDdr (by decide) (by decide))
  rw [romToc]
  split
  · exact hmagic
  · split
    · exact hmagic
    · rename_i hstatic
      rw [Bool.not_eq_false] at hstatic
      obtain ⟨hlo, hhi, hend⟩ := (nkStaticVa_iff _ _).mp hstatic
      have hptr := nkPtr_toNat hlo
      change _ + 0x54 ≤ _ at hend
      have hcount : ∀ x ∈ wordReads (nkPtr (load32 m (nkPtr 0x80200000 + 0x44)) +
          BitVec.ofNat 32 16), InDdr x :=
        fieldReads_inDdr (by omega) (by omega) (by decide : 16 + 4 ≤ 0x54)
      split
      · exact forall_mem_append hmagic hcount
      · exact forall_mem_append hmagic hcount

theorem romToc_tableIn {toc : Word} {n : Nat} (h : (romToc m).1 = .ok (toc, n)) :
    TableIn toc 32 n := by
  rw [romToc] at h
  split at h
  · cases h
  · split at h
    · cases h
    · split at h
      · cases h
      · rename_i htable
        rw [not_or, Bool.not_eq_false] at htable
        have hfew : (load32 m (nkPtr (load32 m (nkPtr 0x80200000 + 0x44)) + 16)).toNat ≤ 512 :=
          BitVec.not_lt.mp htable.1
        obtain ⟨rfl, rfl⟩ := Prod.mk.inj (Except.ok.inj h)
        exact tableIn_of_static htable.2 (by change _ * 32 < _; omega)

/-- What rom_code_range is for: it reads the kernel's DDR only, a range that it finds is that of the
first module of the name, and it misses no module whose name lies in the window. -/
structure Sound (m : Mem) (module : ModuleName) : Prop where
  reads : ∀ x ∈ (romCodeRange m module.bytes).reads, InDdr x
  found : ∀ range, (romCodeRange m module.bytes).outcome = .found range →
    ∃ toc n i code, (romToc m).1 = .ok (toc, n) ∧ Examined m module toc n i ∧
      HasName m module (entryName m toc i) ∧ InPlaceCode m (entry toc 32 i) range code
  absent : (romCodeRange m module.bytes).outcome = .absent →
    ∃ toc n, (romToc m).1 = .ok (toc, n) ∧ ∀ i < n, ¬HasName m module (entryName m toc i)

/-- That holds exactly if the name of no entry examined runs off the window. -/
theorem romCodeRange_sound_iff (m : Mem) (module : ModuleName) :
    Sound m module ↔ ∀ toc n i, (romToc m).1 = .ok (toc, n) → Examined m module toc n i →
      ¬RunsOff m module (entryName m toc i) := by
  have hheader := romToc_inDdr m
  cases htoc : (romToc m).1 with
  | error p =>
    have hrun : romCodeRange m module.bytes = ⟨.panic p, (romToc m).2⟩ := by
      rw [romCodeRange, htoc]
    refine ⟨fun _ toc n i h => (by cases h), fun _ => ⟨?_, ?_, ?_⟩⟩
    · rwa [hrun]
    · intro range h
      rw [hrun] at h
      cases h
    · intro h
      rw [hrun] at h
      cases h
  | ok found =>
    obtain ⟨toc, n⟩ := found
    have hspec : WalkSpec m module toc n (walk m module.bytes n toc) :=
      walk_spec (romToc_tableIn htoc)
    have hrun : romCodeRange m module.bytes =
        (walk m module.bytes n toc).after (romToc m).2 := by
      rw [romCodeRange, htoc]
    constructor
    · intro h toc' n' i heq hi
      cases heq
      refine hspec.reads.mp (fun x hx => ?_) i hi
      apply h.reads
      rw [hrun]
      exact List.mem_append_right _ hx
    · intro h
      refine ⟨?_, ?_, ?_⟩
      · rw [hrun]
        exact forall_mem_append hheader (hspec.reads.mpr fun i hi => h toc n i rfl hi)
      · intro range hr
        rw [hrun] at hr
        obtain ⟨i, code, hi, hhas, hcode⟩ := hspec.found range hr
        exact ⟨toc, n, i, code, htoc, hi, hhas, hcode⟩
      · intro hr
        rw [hrun] at hr
        exact ⟨toc, n, htoc, hspec.absent hr⟩

def lastByteName : Mem :=
  store (storeWord (storeWord (storeWord (storeWord (fun _ => 0) 0x30200040 ECEC_MAGIC)
    0x30200044 0x80200048) 0x30200058 1) 0x302000AC 0x83FFFFFF) 0x33FFFFFF 0x6B

def nameK : ModuleName := ⟨[0x6B], by decide⟩

/-- The byte behind the window is read. -/
theorem romCodeRange_leaves : ¬Sound lastByteName nameK := by
  intro h
  have hread : (0x34000000 : Word) ∈ (romCodeRange lastByteName nameK.bytes).reads := by decide
  have hout : ¬InDdr 0x34000000 := by decide
  exact hout (h.reads _ hread)

end AipcOs.RomImage
