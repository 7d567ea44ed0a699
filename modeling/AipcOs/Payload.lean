import AipcOs.StorageSave

/-! aipc-boot/payload.c: check and payload_load. A payload is an ELF file; its segments go to DDR
while aipc-boot and the framebuffers stay in use. -/
namespace AipcOs.Payload
open ByteMemory Storage

def DDR_LOW : Word := 0x30000000
def DDR_HIGH : Word := 0x34000000
def SELF_LOW : Word := 0x33000000
def SELF_HIGH : Word := 0x33800000
def FB_ADDR : Word := 0x33B00000
def FB_BACK_ADDR : Word := 0x33C00000
def FB_BYTES : Word := 800 * 480 * 2

def PT_LOAD : Word := 1
def EM_ARM : BitVec 16 := 40
def ET_EXEC : BitVec 16 := 2
def PHNUM_MAX : Nat := 16

def PAYLOAD_ENOTELF : Int := -40
def PAYLOAD_ERANGE : Int := -41

def half (buf : List Byte) (i : Nat) : BitVec 16 := buf.getD (i + 1) 0 ++ buf.getD i 0

def word (buf : List Byte) (i : Nat) : Word :=
  leWord (buf.getD i 0) (buf.getD (i + 1) 0) (buf.getD (i + 2) 0) (buf.getD (i + 3) 0)

structure Ehdr where
  ident : List Byte
  type : BitVec 16
  machine : BitVec 16
  entry : Word
  phoff : Word
  phentsize : BitVec 16
  phnum : BitVec 16

def ehdr (buf : List Byte) : Ehdr :=
  ⟨buf.take 16, half buf 16, half buf 18, word buf 24, word buf 28, half buf 42, half buf 44⟩

structure Phdr where
  type : Word
  offset : Word
  paddr : Word
  filesz : Word
  memsz : Word

def phdr (buf : List Byte) : Phdr :=
  ⟨word buf 0, word buf 4, word buf 12, word buf 16, word buf 20⟩

def phdrs (buf : List Byte) (n : Nat) : List Phdr :=
  (List.range n).map fun i => phdr (buf.drop (32 * i))

def overlaps (a b lo hi : Word) : Bool := a < hi ∧ b > lo

def rangeOk (addr size : Word) : Bool :=
  let last := addr + size
  last ≥ addr ∧ addr ≥ DDR_LOW ∧ last ≤ DDR_HIGH ∧ !overlaps addr last SELF_LOW SELF_HIGH ∧
    !overlaps addr last FB_ADDR (FB_ADDR + FB_BYTES) ∧
    !overlaps addr last FB_BACK_ADDR (FB_BACK_ADDR + FB_BYTES)

/-- read_at gives the bytes of the file, or fails and may leave anything in the destination. A read
past the end of the file fails. -/
def readAt (file : List Byte) (fault : Option (List Byte)) (off len : Nat) :
    Except (List Byte) (List Byte) :=
  match fault with
  | some junk => .error (junk.take len)
  | none =>
    if off + len ≤ file.length then .ok ((file.drop off).take len)
    else .error ((file.drop off).take len)

def Phdr.skipped (p : Phdr) : Bool := p.type ≠ PT_LOAD ∨ p.memsz = 0

def checkFrom (entry : Word) (entryOk : Bool) : List Phdr → Int
  | [] => if entryOk then 0 else PAYLOAD_ERANGE
  | p :: ps =>
    if p.skipped then checkFrom entry entryOk ps
    else if p.filesz > p.memsz ∨ !rangeOk p.paddr p.memsz then PAYLOAD_ERANGE
    else checkFrom entry (entryOk || (entry ≥ p.paddr ∧ entry < p.paddr + p.memsz)) ps

/-- `io n` is what goes wrong in the `n`-th read of the file. -/
def check (file : List Byte) (io : Nat → Option (List Byte)) : Except Int (Ehdr × List Phdr) :=
  match readAt file (io 0) 0 52 with
  | .error _ => .error STORAGE_EIO
  | .ok buf =>
    let eh := ehdr buf
    if eh.ident.take 6 ≠ [0x7F, 0x45, 0x4C, 0x46, 1, 1] ∨ eh.type ≠ ET_EXEC ∨ eh.machine ≠ EM_ARM ∨
        eh.phentsize ≠ 32 ∨ eh.phnum = 0 ∨ PHNUM_MAX < eh.phnum.toNat then
      .error PAYLOAD_ENOTELF
    else
      match readAt file (io 1) eh.phoff.toNat (eh.phnum.toNat * 32) with
      | .error _ => .error STORAGE_EIO
      | .ok buf =>
        let ph := phdrs buf eh.phnum.toNat
        let rc := checkFrom eh.entry false ph
        if rc ≠ 0 then .error rc else .ok (eh, ph)

structure Store where
  addr : Word
  bytes : List Byte

def applyStores (stores : List Store) (m : Mem) : Mem :=
  stores.foldl (fun m s => storeBytes m s.addr s.bytes) m

def loadFrom (file : List Byte) (io : Nat → Option (List Byte)) (n : Nat) :
    List Phdr → Bool × List Store
  | [] => (true, [])
  | p :: ps =>
    if p.skipped then loadFrom file io n ps
    else
      let zeros : Store := ⟨p.paddr + p.filesz, List.replicate (p.memsz - p.filesz).toNat 0⟩
      if p.filesz = 0 then
        let (ok, stores) := loadFrom file io n ps
        (ok, zeros :: stores)
      else
        match readAt file (io n) p.offset.toNat p.filesz.toNat with
        | .error junk => (false, [⟨p.paddr, junk⟩])
        | .ok data =>
          let (ok, stores) := loadFrom file io (n + 1) ps
          (ok, ⟨p.paddr, data⟩ :: zeros :: stores)

structure Loaded where
  rc : Int
  entry : Option Word
  stores : List Store

def payloadLoad (file : Option (List Byte)) (io : Nat → Option (List Byte)) : Loaded :=
  match file with
  | none => ⟨STORAGE_ENOTFOUND, none, []⟩
  | some file =>
    match check file io with
    | .error rc => ⟨rc, none, []⟩
    | .ok (eh, ph) =>
      let (ok, stores) := loadFrom file io 2 ph
      if ok then ⟨0, some eh.entry, stores⟩ else ⟨ STORAGE_EIO, none, stores⟩

def headers (file : List Byte) : List Phdr :=
  let eh := ehdr (file.take 52)
  phdrs ((file.drop eh.phoff.toNat).take (eh.phnum.toNat * 32)) eh.phnum.toNat

def Phdr.Loads (p : Phdr) : Prop := p.type = PT_LOAD ∧ p.memsz ≠ 0

def Phdr.Covers (p : Phdr) (x : Word) : Prop :=
  p.paddr.toNat ≤ x.toNat ∧ x.toNat < p.paddr.toNat + p.memsz.toNat

def Phdr.Apart (p : Phdr) (lo hi : Nat) : Prop :=
  p.paddr.toNat + p.memsz.toNat ≤ lo ∨ hi ≤ p.paddr.toNat

/-- A segment in DDR that does not wrap and covers nothing that is in use. -/
structure Phdr.Allowed (p : Phdr) : Prop where
  low : 0x30000000 ≤ p.paddr.toNat
  high : p.paddr.toNat + p.memsz.toNat ≤ 0x34000000
  self : p.Apart 0x33000000 0x33800000
  front : p.Apart 0x33B00000 (0x33B00000 + 800 * 480 * 2)
  back : p.Apart 0x33C00000 (0x33C00000 + 800 * 480 * 2)

def Phdr.image (file : List Byte) (p : Phdr) (m : Mem) : Mem := fun x =>
  if p.paddr.toNat ≤ x.toNat ∧ x.toNat < p.paddr.toNat + p.memsz.toNat then
    if x.toNat < p.paddr.toNat + p.filesz.toNat then
      file.getD (p.offset.toNat + (x.toNat - p.paddr.toNat)) 0
    else 0
  else m x

def segments (file : List Byte) (ps : List Phdr) (m : Mem) : Mem :=
  ps.foldl (fun m p => if p.skipped then m else p.image file m) m

theorem skipped_iff (p : Phdr) : p.skipped = false ↔ p.Loads := by
  rw [Phdr.skipped, decide_eq_false_iff_not, Phdr.Loads, not_or, not_not]

theorem overlaps_false {a b lo hi : Word} (h : overlaps a b lo hi = false) :
    b.toNat ≤ lo.toNat ∨ hi.toNat ≤ a.toNat := by
  rw [overlaps, decide_eq_false_iff_not, not_and_or] at h
  bv_omega

theorem rangeOk_allowed {p : Phdr} (h : rangeOk p.paddr p.memsz) : p.Allowed := by
  rw [rangeOk, decide_eq_true_eq] at h
  obtain ⟨hwrap, hlow, hhigh, hself, hfront, hback⟩ := h
  have hsum : (p.paddr + p.memsz).toNat = p.paddr.toNat + p.memsz.toNat := by bv_omega
  have hself := overlaps_false (Bool.not_eq_true' _ |>.mp hself)
  have hfront := overlaps_false (Bool.not_eq_true' _ |>.mp hfront)
  have hback := overlaps_false (Bool.not_eq_true' _ |>.mp hback)
  rw [hsum] at hself hfront hback
  refine ⟨hlow, ?_, hself, hfront, hback⟩
  rw [← hsum]
  exact hhigh

/-- What check accepts. -/
theorem checkFrom_accepts {entry : Word} {entryOk : Bool} {ps : List Phdr}
    (h : checkFrom entry entryOk ps = 0) :
    (∀ p ∈ ps, p.Loads → p.Allowed ∧ p.filesz.toNat ≤ p.memsz.toNat) ∧
      (entryOk ∨ ∃ p ∈ ps, p.Loads ∧ p.Covers entry) := by
  induction ps generalizing entryOk with
  | nil =>
    cases entryOk with
    | true => exact ⟨by simp, .inl rfl⟩
    | false => cases h
  | cons p ps ih =>
    rw [checkFrom] at h
    by_cases hskip : p.skipped
    · rw [if_pos hskip] at h
      obtain ⟨hall, hentry⟩ := ih h
      refine ⟨?_, hentry.imp_right ?_⟩
      · intro q hq hload
        obtain rfl | hq := List.mem_cons.mp hq
        · rw [← skipped_iff, hskip] at hload
          cases hload
        · exact hall q hq hload
      · intro hex
        obtain ⟨q, hq, hcover⟩ := hex
        exact ⟨q, List.mem_cons_of_mem _ hq, hcover⟩
    · rw [if_neg hskip] at h
      by_cases hbad : p.filesz > p.memsz ∨ !rangeOk p.paddr p.memsz
      · rw [if_pos hbad] at h
        cases h
      · rw [if_neg hbad] at h
        rw [not_or, Bool.not_eq_true', Bool.not_eq_false] at hbad
        have hallowed := rangeOk_allowed hbad.2
        have hfits : p.filesz.toNat ≤ p.memsz.toNat := by
          have := hbad.1
          bv_omega
        obtain ⟨hall, hentry⟩ := ih h
        refine ⟨?_, ?_⟩
        · intro q hq hload
          obtain rfl | hq := List.mem_cons.mp hq
          · exact ⟨hallowed, hfits⟩
          · exact hall q hq hload
        · obtain hentry | ⟨q, hq, hcover⟩ := hentry
          · rw [Bool.or_eq_true, decide_eq_true_eq] at hentry
            refine hentry.imp_right ?_
            intro hin
            refine ⟨p, List.mem_cons_self, (skipped_iff p).mp (Bool.not_eq_true _ |>.mp hskip), ?_⟩
            have hhigh := hallowed.high
            obtain ⟨h1, h2⟩ := hin
            rw [Phdr.Covers]
            bv_omega
          · exact .inr ⟨q, List.mem_cons_of_mem _ hq, hcover⟩

def Store.Within (s : Store) (p : Phdr) : Prop :=
  p.paddr.toNat ≤ s.addr.toNat ∧ s.addr.toNat + s.bytes.length ≤ p.paddr.toNat + p.memsz.toNat

theorem Store.Within.covers {s : Store} {p : Phdr} (h : s.Within p) (ha : p.Allowed) {i : Nat}
    (hi : i < s.bytes.length) : p.Covers (s.addr + BitVec.ofNat 32 i) := by
  obtain ⟨hlo, hhi⟩ := h
  have hhigh := ha.high
  have haddr : (s.addr + BitVec.ofNat 32 i).toNat = s.addr.toNat + i := by
    rw [BitVec.toNat_add, BitVec.toNat_ofNat]
    omega
  rw [Phdr.Covers, haddr]
  omega

def zeroFill (p : Phdr) : Store := ⟨p.paddr + p.filesz, List.replicate (p.memsz - p.filesz).toNat 0⟩

section Segment
variable {p : Phdr} (ha : p.Allowed) (hfits : p.filesz.toNat ≤ p.memsz.toNat)
include ha hfits

theorem zeroFill_addr : (zeroFill p).addr.toNat = p.paddr.toNat + p.filesz.toNat := by
  have hhigh := ha.high
  have hadd : (zeroFill p).addr = p.paddr + p.filesz := rfl
  rw [hadd, BitVec.toNat_add]
  omega

omit ha in
theorem zeroFill_length : (zeroFill p).bytes.length = p.memsz.toNat - p.filesz.toNat := by
  have hsub : (p.memsz - p.filesz).toNat = p.memsz.toNat - p.filesz.toNat := by bv_omega
  rw [zeroFill, List.length_replicate, hsub]

theorem zeroFill_within : (zeroFill p).Within p := by
  rw [Store.Within, zeroFill_addr ha hfits, zeroFill_length hfits]
  omega

omit ha in
theorem junk_within {junk : List Byte} (h : junk.length ≤ p.filesz.toNat) :
    (⟨p.paddr, junk⟩ : Store).Within p := by
  rw [Store.Within]
  simp only
  omega

theorem image_stores (file data : List Byte)
    (hdata : data.length = p.filesz.toNat)
    (hbytes : ∀ i < p.filesz.toNat, data.getD i 0 = file.getD (p.offset.toNat + i) 0) (m : Mem) :
    storeBytes (storeBytes m p.paddr data) (zeroFill p).addr (zeroFill p).bytes =
      p.image file m := by
  have hhigh := ha.high
  have haddr := zeroFill_addr ha hfits
  have hlen := zeroFill_length hfits
  funext x
  rw [storeBytes_range _ _ _ _ (by omega), storeBytes_range _ _ _ _ (by omega), haddr, hlen, hdata,
    Phdr.image]
  by_cases hin : p.paddr.toNat ≤ x.toNat ∧ x.toNat < p.paddr.toNat + p.memsz.toNat
  · rw [if_pos hin]
    by_cases hfile : x.toNat < p.paddr.toNat + p.filesz.toNat
    · rw [if_neg (by omega), if_pos ⟨hin.1, hfile⟩, if_pos hfile, hbytes _ (by omega)]
    · rw [if_pos (by omega), if_neg hfile, zeroFill]
      rw [List.getD_eq_getElem?_getD, List.getElem?_replicate]
      split <;> rfl
  · rw [if_neg hin, if_neg (by omega), if_neg (by omega)]

end Segment

theorem readAt_ok {file data : List Byte} {fault : Option (List Byte)} {off len : Nat}
    (h : readAt file fault off len = .ok data) :
    data = (file.drop off).take len ∧ off + len ≤ file.length := by
  cases fault with
  | some junk => cases h
  | none =>
    rw [readAt] at h
    by_cases hin : off + len ≤ file.length
    · rw [if_pos hin] at h
      exact ⟨(Except.ok.inj h).symm, hin⟩
    · rw [if_neg hin] at h
      cases h

theorem readAt_error {file junk : List Byte} {fault : Option (List Byte)} {off len : Nat}
    (h : readAt file fault off len = .error junk) : junk.length ≤ len := by
  cases fault with
  | some bytes =>
    cases h
    exact List.length_take_le _ _
  | none =>
    rw [readAt] at h
    by_cases hin : off + len ≤ file.length
    · rw [if_pos hin] at h
      cases h
    · rw [if_neg hin] at h
      rw [← Except.error.inj h]
      exact List.length_take_le _ _

theorem slice_getD (file : List Byte) (off len i : Nat) (hi : i < len) :
    ((file.drop off).take len).getD i 0 = file.getD (off + i) 0 := by
  rw [List.getD_eq_getElem?_getD, List.getD_eq_getElem?_getD, List.getElem?_take_of_lt hi,
    List.getElem?_drop]

section Load
variable {file : List Byte} {io : Nat → Option (List Byte)} {ps : List Phdr}
  (hps : ∀ p ∈ ps, p.Loads → p.Allowed ∧ p.filesz.toNat ≤ p.memsz.toNat)
include hps

/-- Every store of the load is inside a segment, whatever the reads do. -/
theorem loadFrom_within (n : Nat) :
    ∀ s ∈ (loadFrom file io n ps).2, ∃ p ∈ ps, p.Loads ∧ p.Allowed ∧ s.Within p := by
  induction ps generalizing n with
  | nil => exact fun _ h => by cases h
  | cons p ps ih =>
    have hrest : ∀ n, ∀ s ∈ (loadFrom file io n ps).2,
        ∃ q ∈ p :: ps, q.Loads ∧ q.Allowed ∧ s.Within q := by
      intro n s hs
      obtain ⟨q, hq, hin⟩ := ih (fun q hq => hps q (List.mem_cons_of_mem _ hq)) n s hs
      exact ⟨q, List.mem_cons_of_mem _ hq, hin⟩
    rw [loadFrom]
    by_cases hskip : p.skipped
    · rw [if_pos hskip]
      exact hrest n
    have hload : p.Loads := (skipped_iff p).mp (Bool.not_eq_true _ |>.mp hskip)
    obtain ⟨ha, hfits⟩ := hps p List.mem_cons_self hload
    have hzeros : ∃ q ∈ p :: ps, q.Loads ∧ q.Allowed ∧ (zeroFill p).Within q :=
      ⟨p, List.mem_cons_self, hload, ha, zeroFill_within ha hfits⟩
    rw [if_neg hskip]
    intro s hs
    by_cases hempty : p.filesz = 0
    · rw [if_pos hempty] at hs
      obtain rfl | hs := List.mem_cons.mp hs
      · exact hzeros
      · exact hrest n s hs
    · rw [if_neg hempty] at hs
      cases hread : readAt file (io n) p.offset.toNat p.filesz.toNat with
      | error junk =>
        rw [hread] at hs
        rw [List.mem_singleton.mp hs]
        exact ⟨p, List.mem_cons_self, hload, ha, junk_within hfits (readAt_error hread)⟩
      | ok data =>
        rw [hread] at hs
        obtain ⟨hdata, hin⟩ := readAt_ok hread
        obtain rfl | hs := List.mem_cons.mp hs
        · refine ⟨p, List.mem_cons_self, hload, ha, junk_within hfits ?_⟩
          rw [hdata]
          exact List.length_take_le _ _
        · obtain rfl | hs := List.mem_cons.mp hs
          · exact hzeros
          · exact hrest (n + 1) s hs

/-- A load that goes through leaves the segments. -/
theorem loadFrom_segments (n : Nat) (m : Mem) (hok : (loadFrom file io n ps).1 = true) :
    applyStores (loadFrom file io n ps).2 m = segments file ps m := by
  induction ps generalizing n m with
  | nil => rfl
  | cons p ps ih =>
    have ih := fun n m => @ih (fun q hq => hps q (List.mem_cons_of_mem _ hq)) n m
    rw [segments, List.foldl_cons]
    rw [loadFrom] at hok ⊢
    by_cases hskip : p.skipped
    · rw [if_pos hskip] at hok ⊢
      rw [if_pos hskip]
      exact ih n m hok
    obtain ⟨ha, hfits⟩ :=
      hps p List.mem_cons_self ((skipped_iff p).mp (Bool.not_eq_true _ |>.mp hskip))
    rw [if_neg hskip] at hok ⊢
    rw [if_neg hskip]
    by_cases hempty : p.filesz = 0
    · have himage := image_stores ha hfits file [] (by rw [hempty]; rfl) (by rw [hempty]; simp) m
      rw [if_pos hempty] at hok ⊢
      rw [← himage]
      exact ih n _ hok
    · rw [if_neg hempty] at hok ⊢
      cases hread : readAt file (io n) p.offset.toNat p.filesz.toNat with
      | error junk =>
        rw [hread] at hok
        cases hok
      | ok data =>
        rw [hread] at hok
        obtain ⟨hdata, hin⟩ := readAt_ok hread
        have himage := image_stores ha hfits file data
          (by rw [hdata, List.length_take, List.length_drop]; omega)
          (by rw [hdata]; exact fun i hi => slice_getD _ _ _ _ hi) m
        rw [← himage]
        exact ih (n + 1) _ hok

end Load

theorem check_ok {file : List Byte} {io : Nat → Option (List Byte)} {eh : Ehdr} {ph : List Phdr}
    (h : check file io = .ok (eh, ph)) :
    ph = headers file ∧ checkFrom eh.entry false ph = 0 := by
  unfold check at h
  cases hread : readAt file (io 0) 0 52 with
  | error junk =>
    rw [hread] at h
    cases h
  | ok buf =>
    rw [hread] at h
    obtain ⟨rfl, -⟩ := readAt_ok hread
    simp only at h
    split at h
    · cases h
    · cases hread' : readAt file (io 1) (ehdr ((file.drop 0).take 52)).phoff.toNat
          ((ehdr ((file.drop 0).take 52)).phnum.toNat * 32) with
      | error junk =>
        rw [hread'] at h
        cases h
      | ok buf =>
        rw [hread'] at h
        obtain ⟨rfl, -⟩ := readAt_ok hread'
        simp only at h
        split at h
        · cases h
        · rename_i hrc
          cases h
          exact ⟨rfl, not_not.mp hrc⟩

theorem check_error {file : List Byte} {io : Nat → Option (List Byte)} {rc : Int}
    (h : check file io = .error rc) : rc ≠ 0 := by
  unfold check at h
  split at h
  · cases h
    decide
  · simp only at h
    split at h
    · cases h
      decide
    · split at h
      · cases h
        decide
      · split at h
        · rename_i hrc
          cases h
          exact hrc
        · cases h

theorem payloadLoad_safe (file : Option (List Byte)) (io : Nat → Option (List Byte)) (m : Mem) :
    (∀ s ∈ (payloadLoad file io).stores, ∀ i < s.bytes.length, ∃ bytes, file = some bytes ∧
      ∃ p ∈ headers bytes, p.Loads ∧ p.Allowed ∧ p.Covers (s.addr + BitVec.ofNat 32 i)) ∧
    (∀ bytes rc, file = some bytes → check bytes io = .error rc →
      (payloadLoad file io).rc = rc ∧ (payloadLoad file io).stores = []) ∧
    ((payloadLoad file io).rc = 0 → ∃ bytes, file = some bytes ∧
      (∀ p ∈ headers bytes, p.Loads → p.Allowed) ∧
      applyStores (payloadLoad file io).stores m = segments bytes (headers bytes) m ∧
      ∃ e, (payloadLoad file io).entry = some e ∧ ∃ p ∈ headers bytes, p.Loads ∧ p.Covers e) := by
  cases file with
  | none =>
    have hrc : STORAGE_ENOTFOUND ≠ 0 := by decide
    exact ⟨fun _ h => (by cases h), fun _ _ h => (by cases h), fun h => absurd h hrc⟩
  | some bytes =>
    cases hcheck : check bytes io with
    | error rc =>
      have hrun : payloadLoad (some bytes) io = ⟨rc, none, []⟩ := by rw [payloadLoad, hcheck]
      rw [hrun]
      refine ⟨fun _ h => (by cases h), ?_, fun h => absurd h (check_error hcheck)⟩
      intro _ rc' hsame hrc
      cases hsame
      rw [hcheck] at hrc
      cases hrc
      exact ⟨rfl, rfl⟩
    | ok found =>
      obtain ⟨eh, ph⟩ := found
      obtain ⟨rfl, hzero⟩ := check_ok hcheck
      obtain ⟨hall, hentry⟩ := checkFrom_accepts hzero
      have hrun : payloadLoad (some bytes) io =
          if (loadFrom bytes io 2 (headers bytes)).1 then
            ⟨0, some eh.entry, (loadFrom bytes io 2 (headers bytes)).2⟩
          else ⟨ STORAGE_EIO, none, (loadFrom bytes io 2 (headers bytes)).2⟩ := by
        rw [payloadLoad, hcheck]
      have hstores : (payloadLoad (some bytes) io).stores =
          (loadFrom bytes io 2 (headers bytes)).2 := by
        rw [hrun]
        split <;> rfl
      refine ⟨?_, ?_, ?_⟩
      · intro s hs i hi
        rw [hstores] at hs
        obtain ⟨p, hp, hload, ha, hin⟩ := loadFrom_within hall 2 s hs
        exact ⟨bytes, rfl, p, hp, hload, ha, hin.covers ha hi⟩
      · intro _ rc hsame hrc
        cases hsame
        rw [hcheck] at hrc
        cases hrc
      · intro hrc
        have hok : (loadFrom bytes io 2 (headers bytes)).1 = true := by
          by_contra hfail
          have hio : STORAGE_EIO ≠ 0 := by decide
          rw [hrun, if_neg hfail] at hrc
          exact hio hrc
        have hcovered := hentry.resolve_left (by decide)
        refine ⟨bytes, rfl, fun p hp hload => (hall p hp hload).1, ?_, eh.entry, ?_, hcovered⟩
        · rw [hstores]
          exact loadFrom_segments hall 2 m hok
        · rw [hrun, if_pos hok]

end AipcOs.Payload
