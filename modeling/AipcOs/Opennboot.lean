import AipcOs.ByteMemory

/-! Installing and restoring the bootloader in block 0: the host tools, the stub that erases and
programs, and the flash between them. -/
namespace AipcOs.Opennboot
open ByteMemory

def PAGE_DATA : Nat := 2048
def PAGE_SPARE : Nat := 64
def PAGE_RAW : Nat := 2112
def BLOCK_PAGES : Nat := 64
def NF_MAX_PAGES : Nat := 64
def NF_E_ARG : Nat := 5
def SIGNATURE : List Byte := [0x41, 0x4E, 0x59, 0x4B, 0x41, 0x33, 0x38, 0x32]
def SIG_OFFSET : Nat := 0x04
def CHUNKS_OFFSET : Nat := 0x0C
def PAGE_COUNT_OFFSET : Nat := 0x0D
def MAX_PAYLOAD_PAGES : Nat := BLOCK_PAGES - 1

/-- The block by page and column. -/
abbrev Flash := Nat → Nat → Byte

/-- A failing operation: its code, the chip status, and what it left. -/
structure Fault (α : Type) where
  rc : Nat
  nonzero : rc ≠ 0
  status : Byte
  left : α

structure Faults where
  erase : Option (Fault Flash)
  program : Nat → Option (Fault (Nat → Byte))

def erased : Flash := fun _ _ => 0xFF

/-- Programming clears bits of the data columns and leaves the spare columns alone. -/
def programPage (fl : Flash) (p : Nat) (data : Nat → Byte) : Flash := fun q c =>
  if q = p ∧ c < PAGE_DATA then fl q c &&& data c else fl q c

def spoilPage (fl : Flash) (p : Nat) (left : Nat → Byte) : Flash := fun q c =>
  if q = p then left c else fl q c

/-- What the stub reports, and the flash after each of its operations, the first state
included. -/
structure StubRun where
  rc : Nat
  fail : Nat
  status : Byte
  states : List Flash

def StubRun.final (r : StubRun) : Flash := r.states.getLastD erased

def programPages (f : Faults) (buf : List Byte) : Nat → Nat → Flash → StubRun
  | 0, p, fl => ⟨0, p, 0, [fl]⟩
  | n + 1, p, fl =>
    match f.program p with
    | some e => ⟨e.rc, p, e.status, [fl, spoilPage fl p e.left]⟩
    | none =>
      let r := programPages f buf n (p + 1)
        (programPage fl p fun c => buf.getD (p * PAGE_RAW + c) 0)
      { r with states := fl :: r.states }

def stubMain (f : Faults) (count : Nat) (buf : List Byte) (fl : Flash) : StubRun :=
  if count > NF_MAX_PAGES then ⟨NF_E_ARG, 0, 0, [fl]⟩
  else
    match f.erase with
    | some e => ⟨e.rc, count, e.status, [fl, e.left]⟩
    | none =>
      let r := programPages f buf count 0 erased
      { r with states := fl :: r.states }

def readPages (fl : Flash) : List Byte :=
  (List.range (BLOCK_PAGES * PAGE_RAW)).map fun i => fl (i / PAGE_RAW) (i % PAGE_RAW)

def splice (l : List Byte) (off : Nat) (bs : List Byte) : List Byte :=
  l.take off ++ bs ++ l.drop (off + bs.length)

def slice (l : List Byte) (off n : Nat) : List Byte := (l.drop off).take n

def spareOffsets (size : Nat) : List Nat :=
  List.range' PAGE_DATA ((size - PAGE_DATA + (PAGE_RAW - 1)) / PAGE_RAW) PAGE_RAW

def afterWrite (image : List Byte) : List Byte :=
  (spareOffsets image.length).foldl
    (fun out off => splice out off (List.replicate PAGE_SPARE 0xFF)) image

def hex (width n : Nat) : String :=
  let digits := Nat.toDigits 16 n
  "0x" ++ String.ofList (List.replicate (width - 2 - digits.length) '0' ++ digits)

def firstMismatch : Nat → List Byte → List Byte → Option (Nat × Byte × Byte)
  | i, a :: got, b :: want => if a ≠ b then some (i, a, b) else firstMismatch (i + 1) got want
  | _, _, _ => none

def describeMismatch (got want : List Byte) : Option String :=
  if got.length ≠ want.length then
    some ("it is " ++ toString got.length ++ " bytes, expected " ++ toString want.length)
  else
    match firstMismatch 0 got want with
    | none => none
    | some (i, a, b) =>
      some ("page " ++ toString (i / PAGE_RAW) ++ " column " ++ hex 6 (i % PAGE_RAW) ++ " is " ++
        hex 4 a.toNat ++ ", expected " ++ hex 4 b.toNat)

/-- The pages that `write_pages` programs: all up to the last one that carries data. -/
def pagesWithData (image : List Byte) : Nat :=
  (List.range BLOCK_PAGES).foldl
    (fun count p =>
      if slice image (p * PAGE_RAW) PAGE_DATA ≠ List.replicate PAGE_DATA 0xFF then p + 1
      else count) 0

def errorText (rc : Nat) : String :=
  if rc = 0 then "ok"
  else if rc = 1 then "sequencer never reported done"
  else if rc = 2 then "L2 buffer never filled"
  else if rc = 3 then "DMA never reported done"
  else if rc = 4 then "the chip reported a failure status"
  else if rc = 5 then "stub rejected its arguments"
  else toString rc

def writeError (count : Nat) (r : StubRun) : String :=
  let place := if r.fail ≥ count then "erase" else "page " ++ toString r.fail
  let wp := if r.status &&& 0x80 ≠ 0 then "" else "; part reports write protect"
  "Write at row 0 failed at " ++ place ++ ": " ++ errorText r.rc ++ " (chip status " ++
    hex 4 r.status.toNat ++ ")" ++ wp

structure Outcome where
  states : List Flash
  exit : Except String Nat

def Outcome.final (o : Outcome) : Flash := o.states.getLastD erased

def writePages (image : List Byte) (f : Faults) (fl : Flash) : Outcome :=
  if image.length ≠ BLOCK_PAGES * PAGE_RAW then
    ⟨[fl], .error ("Image must be " ++ toString (BLOCK_PAGES * PAGE_RAW) ++ " bytes, got " ++
      toString image.length)⟩
  else
    let count := pagesWithData image
    let r := stubMain f count (image.take (count * PAGE_RAW)) fl
    ⟨r.states, if r.rc ≠ 0 then .error (writeError count r) else .ok count⟩

def writeVerified (image : List Byte) (f : Faults) (fl : Flash) : Outcome :=
  let w := writePages image f fl
  ⟨w.states, w.exit.map fun _ =>
    if (describeMismatch (readPages w.final) (afterWrite image)).isSome then 1 else 0⟩

def buildImage (original payload : List Byte) : Except String (List Byte × Nat) :=
  let header := original.take PAGE_DATA
  let declared := (header.getD CHUNKS_OFFSET 0).toNat * 512
  let installed := (header.getD PAGE_COUNT_OFFSET 0).toNat
  let pageCount := (payload.length + PAGE_DATA - 1) / PAGE_DATA
  if slice header SIG_OFFSET 8 ≠ SIGNATURE then
    .error ("The header page does not carry the ANYKA382 signature. The bootrom " ++
      "would reject the result, so nothing was written")
  else if declared ≠ PAGE_DATA then
    .error ("The header declares a " ++ toString declared ++ " byte page. These tools are " ++
      "built around " ++ toString PAGE_DATA)
  else if installed > MAX_PAYLOAD_PAGES then
    .error ("The installed bootloader claims " ++ toString installed ++ " pages, past the " ++
      toString MAX_PAYLOAD_PAGES ++ " this tool reads and saves. It cannot get a " ++
      "complete backup")
  else if pageCount > MAX_PAYLOAD_PAGES then
    .error ("Payload needs " ++ toString pageCount ++ " pages, more than the " ++
      toString MAX_PAYLOAD_PAGES ++ " that fit in one block")
  else
    let blank := splice (List.replicate (BLOCK_PAGES * PAGE_RAW) 0xFF) 0
      (header.set PAGE_COUNT_OFFSET (BitVec.ofNat 8 pageCount))
    let image := (List.range pageCount).foldl
      (fun image i =>
        let chunk := slice payload (i * PAGE_DATA) PAGE_DATA
        splice image ((i + 1) * PAGE_RAW)
          (chunk ++ List.replicate (PAGE_DATA - chunk.length) 0xFF)) blank
    .ok (image, pageCount)

def installBuilt (fl : Flash) (confirmed : Bool) (f : Faults) :
    Except String (List Byte × Nat) → Outcome
  | .error msg => ⟨[fl], .error msg⟩
  | .ok (image, _) => if confirmed then writeVerified image f fl else ⟨[fl], .ok 0⟩

def installRun (fl : Flash) (payload : List Byte) (confirmed : Bool) (f : Faults) : Outcome :=
  installBuilt fl confirmed f (buildImage (readPages fl) payload)

def restoreRun (image : List Byte) (confirmed : Bool) (f : Faults) (fl : Flash) : Outcome :=
  if image.length ≠ BLOCK_PAGES * PAGE_RAW then ⟨[fl], .ok 1⟩
  else if confirmed then writeVerified image f fl
  else ⟨[fl], .ok 0⟩

theorem splice_length {l bs : List Byte} {off : Nat} (h : off + bs.length ≤ l.length) :
    (splice l off bs).length = l.length := by
  rw [splice, List.length_append, List.length_append, List.length_take, List.length_drop]
  omega

theorem splice_getElem? {l bs : List Byte} {off : Nat} (h : off + bs.length ≤ l.length) (i : Nat) :
    (splice l off bs)[i]? = if off ≤ i ∧ i < off + bs.length then bs[i - off]? else l[i]? := by
  have htake : (l.take off).length = off := by
    rw [List.length_take]
    omega
  have hboth : (l.take off ++ bs).length = off + bs.length := by
    rw [List.length_append, htake]
  unfold splice
  by_cases hlt : i < off
  · rw [if_neg (by omega), List.getElem?_append_left (by omega), List.getElem?_append_left (by omega),
      List.getElem?_take_of_lt hlt]
  · by_cases hin : i < off + bs.length
    · rw [if_pos ⟨not_lt.mp hlt, hin⟩, List.getElem?_append_left (by omega),
        List.getElem?_append_right (by omega), htake]
    · rw [if_neg (by omega), List.getElem?_append_right (by omega), hboth, List.getElem?_drop]
      congr 1
      omega

theorem readPages_length (fl : Flash) : (readPages fl).length = BLOCK_PAGES * PAGE_RAW := by
  rw [readPages, List.length_map, List.length_range]

theorem readPages_getElem? (fl : Flash) {i : Nat} (h : i < BLOCK_PAGES * PAGE_RAW) :
    (readPages fl)[i]? = some (fl (i / PAGE_RAW) (i % PAGE_RAW)) := by
  rw [readPages, List.getElem?_map, List.getElem?_range h]
  rfl

/-- A column of a page, as an offset into the raw pages. -/
theorem column_bounds {p c : Nat} (hp : p < BLOCK_PAGES) (hc : c < PAGE_RAW) :
    p * PAGE_RAW + c < BLOCK_PAGES * PAGE_RAW ∧ (p * PAGE_RAW + c) / PAGE_RAW = p ∧
      (p * PAGE_RAW + c) % PAGE_RAW = c := by
  simp only [BLOCK_PAGES, PAGE_RAW] at *
  omega

theorem readPages_getD (fl : Flash) {p c : Nat} (hp : p < BLOCK_PAGES) (hc : c < PAGE_RAW) :
    (readPages fl).getD (p * PAGE_RAW + c) 0 = fl p c := by
  obtain ⟨hlt, hdiv, hmod⟩ := column_bounds hp hc
  rw [List.getD_eq_getElem?_getD, readPages_getElem? fl hlt, hdiv, hmod]
  rfl

/-- Filling the spare columns of the first `k` pages. -/
theorem fillSpare (image : List Byte) (k : Nat) (hk : k * PAGE_RAW ≤ image.length) :
    let out := (List.range' PAGE_DATA k PAGE_RAW).foldl
      (fun out off => splice out off (List.replicate PAGE_SPARE 0xFF)) image
    out.length = image.length ∧ ∀ i, out[i]? =
      if i / PAGE_RAW < k ∧ PAGE_DATA ≤ i % PAGE_RAW then some 0xFF else image[i]? := by
  induction k with
  | zero => simp
  | succ k ih =>
    rw [Nat.succ_mul] at hk
    obtain ⟨hlen, hget⟩ := ih (by omega)
    simp only [List.range'_concat, List.foldl_append, List.foldl_cons, List.foldl_nil]
    have hfits : PAGE_DATA + PAGE_RAW * k + (List.replicate PAGE_SPARE (0xFF : Byte)).length ≤
        ((List.range' PAGE_DATA k PAGE_RAW).foldl
          (fun out off => splice out off (List.replicate PAGE_SPARE 0xFF)) image).length := by
      rw [hlen, List.length_replicate]
      simp only [PAGE_DATA, PAGE_RAW, PAGE_SPARE] at *
      omega
    refine ⟨(splice_length hfits).trans hlen, ?_⟩
    intro i
    rw [splice_getElem? hfits, hget, List.length_replicate]
    have hpage : i / PAGE_RAW < k + 1 ∧ PAGE_DATA ≤ i % PAGE_RAW ↔
        (PAGE_DATA + PAGE_RAW * k ≤ i ∧ i < PAGE_DATA + PAGE_RAW * k + PAGE_SPARE) ∨
          (i / PAGE_RAW < k ∧ PAGE_DATA ≤ i % PAGE_RAW) := by
      simp only [PAGE_DATA, PAGE_RAW, PAGE_SPARE]
      omega
    by_cases hin : PAGE_DATA + PAGE_RAW * k ≤ i ∧ i < PAGE_DATA + PAGE_RAW * k + PAGE_SPARE
    · rw [if_pos hin, if_pos (hpage.mpr (.inl hin)), List.getElem?_replicate_of_lt (by omega)]
    · rw [if_neg hin]
      simp only [hpage, hin, false_or]

theorem afterWrite_getElem? {image : List Byte} (h : image.length = BLOCK_PAGES * PAGE_RAW) :
    (afterWrite image).length = BLOCK_PAGES * PAGE_RAW ∧
    ∀ i < BLOCK_PAGES * PAGE_RAW, (afterWrite image)[i]? =
      if PAGE_DATA ≤ i % PAGE_RAW then some 0xFF else image[i]? := by
  have hoffsets : spareOffsets image.length = List.range' PAGE_DATA BLOCK_PAGES PAGE_RAW := by
    rw [h]
    rfl
  obtain ⟨hlen, hget⟩ := fillSpare image BLOCK_PAGES (le_of_eq h.symm)
  rw [afterWrite, hoffsets]
  refine ⟨hlen.trans h, ?_⟩
  intro i hi
  rw [hget]
  have hpage : i / PAGE_RAW < BLOCK_PAGES := (Nat.div_lt_iff_lt_mul (by decide)).mpr hi
  simp only [hpage, true_and]

theorem firstMismatch_self (i : Nat) (l : List Byte) : firstMismatch i l l = none := by
  induction l generalizing i with
  | nil => rfl
  | cons a l ih =>
    rw [firstMismatch, if_neg (not_not.mpr rfl)]
    exact ih (i + 1)

theorem describeMismatch_self (l : List Byte) : describeMismatch l l = none := by
  rw [describeMismatch, if_neg (not_not.mpr rfl), firstMismatch_self]

/-- The pages behind the last one with data are blank. -/
theorem pagesWithData_blank (image : List Byte) :
    pagesWithData image ≤ BLOCK_PAGES ∧
    ∀ p, pagesWithData image ≤ p → p < BLOCK_PAGES →
      slice image (p * PAGE_RAW) PAGE_DATA = List.replicate PAGE_DATA 0xFF := by
  unfold pagesWithData
  induction BLOCK_PAGES with
  | zero => exact ⟨le_rfl, fun p _ hp => absurd hp (Nat.not_lt_zero p)⟩
  | succ n ih =>
    rw [List.range_succ, List.foldl_append, List.foldl_cons, List.foldl_nil]
    split
    · refine ⟨le_rfl, fun p hle hlt => ?_⟩
      omega
    · next hblank =>
      refine ⟨le_trans ih.1 (Nat.le_succ n), fun p hle hlt => ?_⟩
      rcases Nat.lt_succ_iff_lt_or_eq.mp hlt with hp | rfl
      · exact ih.2 p hle hp
      · exact not_not.mp hblank

/-- The state a run of page programs ends in when none of them fails. -/
theorem programPages_done {f : Faults} {buf : List Byte} {n p : Nat} {fl : Flash} (d : Flash)
    (h : (programPages f buf n p fl).rc = 0) :
    (programPages f buf n p fl).states.getLastD d = fun q c =>
      if p ≤ q ∧ q < p + n ∧ c < PAGE_DATA then fl q c &&& buf.getD (q * PAGE_RAW + c) 0
      else fl q c := by
  induction n generalizing p fl d with
  | zero =>
    funext q c
    rw [if_neg (by omega)]
    rfl
  | succ n ih =>
    rw [programPages] at h ⊢
    cases hp : f.program p with
    | some e =>
      rw [hp] at h
      exact absurd h e.nonzero
    | none =>
      rw [hp] at h
      simp only [List.getLastD_cons]
      rw [ih fl h]
      funext q c
      by_cases hq : q = p ∧ c < PAGE_DATA
      · rw [if_neg (by omega), if_pos (by omega), programPage, if_pos hq, hq.1]
      · have hstep : programPage fl p (fun c => buf.getD (p * PAGE_RAW + c) 0) q c = fl q c :=
          if_neg hq
        rw [hstep]
        by_cases hin : p + 1 ≤ q ∧ q < p + 1 + n ∧ c < PAGE_DATA
        · rw [if_pos hin, if_pos (by omega)]
        · rw [if_neg hin, if_neg (by omega)]

theorem erased_and (q c : Nat) (b : Byte) : erased q c &&& b = b := BitVec.allOnes_and

/-- A stub that reports success has programmed its pages into an erased block, whatever the block
held before. -/
theorem stubMain_done {f : Faults} {count : Nat} {buf : List Byte} {fl : Flash}
    (h : (stubMain f count buf fl).rc = 0) (q c : Nat) :
    (stubMain f count buf fl).final q c =
      if q < count ∧ c < PAGE_DATA then buf.getD (q * PAGE_RAW + c) 0 else 0xFF := by
  unfold StubRun.final
  rw [stubMain] at h ⊢
  split at h
  · cases h
  · rename_i hcount
    rw [if_neg hcount]
    cases he : f.erase with
    | some e =>
      rw [he] at h
      exact absurd h e.nonzero
    | none =>
      rw [he] at h
      simp only [List.getLastD_cons]
      rw [programPages_done fl h]
      simp only [Nat.zero_le, true_and, Nat.zero_add, erased_and]
      rfl

theorem slice_getElem? (l : List Byte) (off n c : Nat) (h : c < n) :
    (slice l off n)[c]? = l[off + c]? := by
  rw [slice, List.getElem?_take_of_lt h, List.getElem?_drop]

/-- What the block reads as behind a write that succeeded: the image, its spare columns blank.
The pages past the last one with data were not programmed, and stay erased. -/
theorem writePages_done {image : List Byte} {f : Faults} {fl : Flash}
    (hlen : image.length = BLOCK_PAGES * PAGE_RAW)
    (h : (stubMain f (pagesWithData image) (image.take (pagesWithData image * PAGE_RAW)) fl).rc
      = 0) :
    (writePages image f fl).exit = .ok (pagesWithData image) ∧
      readPages (writePages image f fl).final = afterWrite image := by
  rw [writePages, if_neg (not_not.mpr hlen)]
  refine ⟨if_neg (not_not.mpr h), ?_⟩
  obtain ⟨halen, haget⟩ := afterWrite_getElem? hlen
  apply List.ext_getElem?
  intro i
  by_cases hi : i < BLOCK_PAGES * PAGE_RAW
  · rw [readPages_getElem? _ hi, haget i hi]
    have hfinal := stubMain_done h (i / PAGE_RAW) (i % PAGE_RAW)
    have hsplit : i / PAGE_RAW * PAGE_RAW + i % PAGE_RAW = i := Nat.div_add_mod' i PAGE_RAW
    rw [hsplit] at hfinal
    simp only [Outcome.final, StubRun.final] at hfinal ⊢
    rw [hfinal]
    by_cases hdata : i % PAGE_RAW < PAGE_DATA
    · rw [if_neg (not_le.mpr hdata)]
      by_cases hpage : i / PAGE_RAW < pagesWithData image
      · have htaken : i < pagesWithData image * PAGE_RAW :=
          (Nat.div_lt_iff_lt_mul (by decide)).mp hpage
        rw [if_pos ⟨hpage, hdata⟩, List.getD_eq_getElem?_getD, List.getElem?_take_of_lt htaken,
          List.getElem?_eq_getElem (by omega)]
        rfl
      · have hrow : i / PAGE_RAW < BLOCK_PAGES := (Nat.div_lt_iff_lt_mul (by decide)).mpr hi
        have hblank := (pagesWithData_blank image).2 _ (not_lt.mp hpage) hrow
        have hbyte := slice_getElem? image (i / PAGE_RAW * PAGE_RAW) PAGE_DATA _ hdata
        rw [hblank, hsplit, List.getElem?_replicate_of_lt hdata] at hbyte
        rw [if_neg (fun hc => hpage hc.1), ← hbyte]
    · rw [if_neg (fun hc => hdata hc.2), if_pos (not_lt.mp hdata)]
  · rw [List.getElem?_eq_none (by rw [readPages_length]; omega),
      List.getElem?_eq_none (by rw [halen]; omega)]

/-- A write whose stub succeeds passes its comparison. -/
theorem writeVerified_done {image : List Byte} {f : Faults} {fl : Flash}
    (hlen : image.length = BLOCK_PAGES * PAGE_RAW)
    (h : (stubMain f (pagesWithData image) (image.take (pagesWithData image * PAGE_RAW)) fl).rc
      = 0) :
    (writeVerified image f fl).exit = .ok 0 ∧
      readPages (writeVerified image f fl).final = afterWrite image := by
  obtain ⟨hexit, hread⟩ := writePages_done hlen h
  refine ⟨?_, hread⟩
  rw [writeVerified]
  simp only [hexit, hread, describeMismatch_self]
  rfl

/-- A write that gets as far as its comparison had a stub that succeeded. -/
theorem writeVerified_stub {image : List Byte} {f : Faults} {fl : Flash} {code : Nat}
    (hlen : image.length = BLOCK_PAGES * PAGE_RAW)
    (h : (writeVerified image f fl).exit = .ok code) :
    (stubMain f (pagesWithData image) (image.take (pagesWithData image * PAGE_RAW)) fl).rc = 0 := by
  by_contra hrc
  rw [writeVerified, writePages, if_neg (not_not.mpr hlen)] at h
  simp only [if_pos hrc] at h
  cases h

theorem column_of_readPages {fl : Flash} {image : List Byte} {p c : Nat}
    (hlen : image.length = BLOCK_PAGES * PAGE_RAW) (h : readPages fl = afterWrite image)
    (hp : p < BLOCK_PAGES) (hc : c < PAGE_RAW) :
    fl p c = if c < PAGE_DATA then image.getD (p * PAGE_RAW + c) 0 else 0xFF := by
  obtain ⟨hlt, -, hmod⟩ := column_bounds hp hc
  have hcol := (afterWrite_getElem? hlen).2 _ hlt
  rw [← readPages_getD fl hp hc, h, List.getD_eq_getElem?_getD, hcol, hmod]
  by_cases hdata : c < PAGE_DATA
  · rw [if_neg (not_le.mpr hdata), if_pos hdata, List.getD_eq_getElem?_getD]
  · rw [if_pos (not_lt.mp hdata), if_neg hdata]
    rfl

theorem paddedChunk_getElem? (payload : List Byte) (i : Nat) {c : Nat} (hc : c < PAGE_DATA) :
    (slice payload (i * PAGE_DATA) PAGE_DATA ++
      List.replicate (PAGE_DATA - (slice payload (i * PAGE_DATA) PAGE_DATA).length) 0xFF)[c]? =
      some (payload.getD (i * PAGE_DATA + c) 0xFF) := by
  have hlen : (slice payload (i * PAGE_DATA) PAGE_DATA).length =
      min PAGE_DATA (payload.length - i * PAGE_DATA) := by
    rw [slice, List.length_take, List.length_drop]
  rw [List.getD_eq_getElem?_getD]
  by_cases hin : i * PAGE_DATA + c < payload.length
  · rw [List.getElem?_append_left (by omega), slice_getElem? _ _ _ _ hc,
      List.getElem?_eq_getElem hin]
    rfl
  · rw [List.getElem?_append_right (by omega), List.getElem?_replicate_of_lt (by omega),
      List.getElem?_eq_none (not_lt.mp hin)]
    rfl

theorem paddedChunk_length (payload : List Byte) (i : Nat) :
    (slice payload (i * PAGE_DATA) PAGE_DATA ++
      List.replicate (PAGE_DATA - (slice payload (i * PAGE_DATA) PAGE_DATA).length)
        (0xFF : Byte)).length = PAGE_DATA := by
  have hle : (slice payload (i * PAGE_DATA) PAGE_DATA).length ≤ PAGE_DATA :=
    List.length_take_le _ _
  rw [List.length_append, List.length_replicate]
  omega

/-- The image behind the first `k` chunks of the payload. -/
theorem layPayload (blank payload : List Byte) (k : Nat)
    (hblank : blank.length = BLOCK_PAGES * PAGE_RAW) (hk : k ≤ MAX_PAYLOAD_PAGES) :
    let image := (List.range k).foldl
      (fun image i =>
        let chunk := slice payload (i * PAGE_DATA) PAGE_DATA
        splice image ((i + 1) * PAGE_RAW)
          (chunk ++ List.replicate (PAGE_DATA - chunk.length) 0xFF)) blank
    image.length = BLOCK_PAGES * PAGE_RAW ∧
    ∀ p c, c < PAGE_DATA → image[p * PAGE_RAW + c]? =
      if 1 ≤ p ∧ p ≤ k then some (payload.getD ((p - 1) * PAGE_DATA + c) 0xFF)
      else blank[p * PAGE_RAW + c]? := by
  induction k with
  | zero =>
    refine ⟨hblank, ?_⟩
    intro p c hc
    rw [if_neg (by omega)]
    rfl
  | succ k ih =>
    obtain ⟨hlen, hget⟩ := ih (by omega)
    simp only [List.range_succ, List.foldl_append, List.foldl_cons, List.foldl_nil]
    generalize (List.range k).foldl _ blank = image at hlen hget ⊢
    have hfits : (k + 1) * PAGE_RAW + (slice payload (k * PAGE_DATA) PAGE_DATA ++
        List.replicate (PAGE_DATA - (slice payload (k * PAGE_DATA) PAGE_DATA).length)
          (0xFF : Byte)).length ≤ image.length := by
      rw [paddedChunk_length, hlen]
      simp only [MAX_PAYLOAD_PAGES, BLOCK_PAGES, PAGE_DATA, PAGE_RAW] at *
      omega
    refine ⟨(splice_length hfits).trans hlen, ?_⟩
    intro p c hc
    rw [splice_getElem? hfits, paddedChunk_length, hget p c hc]
    by_cases hp : p = k + 1
    · subst hp
      rw [if_pos (by omega), if_pos (by omega), Nat.add_sub_cancel_left,
        paddedChunk_getElem? payload k hc, Nat.add_sub_cancel]
    · have hother : ¬((k + 1) * PAGE_RAW ≤ p * PAGE_RAW + c ∧
          p * PAGE_RAW + c < (k + 1) * PAGE_RAW + PAGE_DATA) := by
        simp only [PAGE_DATA, PAGE_RAW] at *
        omega
      rw [if_neg hother]
      by_cases hin : 1 ≤ p ∧ p ≤ k
      · rw [if_pos hin, if_pos (by omega)]
      · rw [if_neg hin, if_neg (by omega)]

/-- An image that passed the checks: the header page with its new page count, then the payload
padded with `0xFF`. -/
theorem buildImage_ok {original payload image : List Byte} {n : Nat}
    (hlen : original.length = BLOCK_PAGES * PAGE_RAW)
    (h : buildImage original payload = .ok (image, n)) :
    image.length = BLOCK_PAGES * PAGE_RAW ∧ n = (payload.length + PAGE_DATA - 1) / PAGE_DATA ∧
    n ≤ MAX_PAYLOAD_PAGES ∧
    (∀ c < PAGE_DATA, image.getD c 0 =
      if c = PAGE_COUNT_OFFSET then BitVec.ofNat 8 n else original.getD c 0) ∧
    ∀ p, 1 ≤ p → p ≤ n → ∀ c < PAGE_DATA,
      image.getD (p * PAGE_RAW + c) 0 = payload.getD ((p - 1) * PAGE_DATA + c) 0xFF := by
  unfold buildImage at h
  simp only at h
  split at h
  · cases h
  split at h
  · cases h
  split at h
  · cases h
  split at h
  · cases h
  rename_i hcount
  rw [Except.ok.injEq, Prod.mk.injEq] at h
  obtain ⟨rfl, rfl⟩ := h
  have hheader : (original.take PAGE_DATA).length = PAGE_DATA := by
    rw [List.length_take, hlen]
    rfl
  generalize hpatched : (original.take PAGE_DATA).set PAGE_COUNT_OFFSET _ = patched
  have hplen : patched.length = PAGE_DATA := by
    rw [← hpatched, List.length_set, hheader]
  have hfits : 0 + patched.length ≤
      (List.replicate (BLOCK_PAGES * PAGE_RAW) (0xFF : Byte)).length := by
    rw [hplen, List.length_replicate]
    decide
  have hblank : (splice (List.replicate (BLOCK_PAGES * PAGE_RAW) 0xFF) 0 patched).length =
      BLOCK_PAGES * PAGE_RAW := by
    rw [splice_length hfits, List.length_replicate]
  have hlaid := layPayload _ payload _ hblank (not_lt.mp hcount)
  simp only at hlaid
  generalize List.foldl _ _ _ = image at hlaid ⊢
  obtain ⟨hilen, hget⟩ := hlaid
  refine ⟨hilen, rfl, not_lt.mp hcount, ?_, ?_⟩
  · intro c hc
    have hbyte := hget 0 c hc
    rw [Nat.zero_mul, Nat.zero_add, if_neg (by omega), splice_getElem? hfits,
      if_pos (by omega), Nat.sub_zero, ← hpatched, List.getElem?_set,
      List.getElem?_take_of_lt hc] at hbyte
    rw [List.getD_eq_getElem?_getD, hbyte, hheader]
    by_cases hcol : c = PAGE_COUNT_OFFSET
    · rw [if_pos hcol.symm, if_pos (by decide), if_pos hcol]
      rfl
    · rw [if_neg (Ne.symm hcol), if_neg hcol, List.getD_eq_getElem?_getD]
  · intro p hp hle c hc
    rw [List.getD_eq_getElem?_getD, hget p c hc, if_pos ⟨hp, hle⟩]
    rfl

theorem installRun_refused {fl : Flash} {payload : List Byte} {msg : String}
    (h : buildImage (readPages fl) payload = .error msg) (confirmed : Bool) (f : Faults) :
    installRun fl payload confirmed f = ⟨[fl], .error msg⟩ := by
  rw [installRun, h]
  rfl

theorem installRun_confirmed {fl : Flash} {payload image : List Byte} {n : Nat}
    (h : buildImage (readPages fl) payload = .ok (image, n)) (f : Faults) :
    installRun fl payload true f = writeVerified image f fl := by
  rw [installRun, h]
  rfl

/-- The block behind an install that completed. -/
theorem installRun_installed {fl : Flash} {payload : List Byte} {f : Faults} {code : Nat}
    (h : (installRun fl payload true f).exit = .ok code) :
    let n := (payload.length + PAGE_DATA - 1) / PAGE_DATA
    let installed := (installRun fl payload true f).final
    code = 0 ∧ n ≤ MAX_PAYLOAD_PAGES ∧
      (∀ c < PAGE_DATA, installed 0 c =
        if c = PAGE_COUNT_OFFSET then BitVec.ofNat 8 n else fl 0 c) ∧
      ∀ p, 1 ≤ p → p ≤ n → ∀ c < PAGE_DATA,
        installed p c = payload.getD ((p - 1) * PAGE_DATA + c) 0xFF := by
  cases hbuild : buildImage (readPages fl) payload with
  | error msg =>
    rw [installRun_refused hbuild] at h
    cases h
  | ok built =>
    obtain ⟨image, count⟩ := built
    have hrun := installRun_confirmed hbuild f
    obtain ⟨hilen, rfl, hmax, hheader, hpages⟩ := buildImage_ok (readPages_length fl) hbuild
    rw [hrun] at h ⊢
    obtain ⟨hexit, hread⟩ := writeVerified_done hilen (writeVerified_stub hilen h)
    have hcolumn : ∀ p < BLOCK_PAGES, ∀ c < PAGE_DATA,
        (writeVerified image f fl).final p c = image.getD (p * PAGE_RAW + c) 0 := by
      intro p hp c hc
      have hraw : c < PAGE_RAW := lt_trans hc (by decide)
      rw [column_of_readPages hilen hread hp hraw, if_pos hc]
    refine ⟨?_, hmax, ?_, ?_⟩
    · rw [hexit] at h
      exact (Except.ok.inj h).symm
    · intro c hc
      have hraw : c < PAGE_RAW := lt_trans hc (by decide)
      have horig := readPages_getD fl (p := 0) (by decide) hraw
      rw [Nat.zero_mul, Nat.zero_add] at horig
      rw [hcolumn 0 (by decide) c hc, Nat.zero_mul, Nat.zero_add, hheader c hc, horig]
    · intro p hp hle c hc
      have hrow : p < BLOCK_PAGES := Nat.lt_succ_of_le (le_trans hle hmax)
      rw [hcolumn p hrow c hc, hpages p hp hle c hc]

/-- The bootloader can be put back: whatever the block held and wherever the install was cut off,
a restore of its backup whose stub succeeds gives back every data column, with the spare columns
blank, and passes its own comparison. -/
theorem bootloader_put_back (fl : Flash) (payload : List Byte) (confirmed : Bool) (f : Faults) :
    (∀ cut ∈ (installRun fl payload confirmed f).states, ∀ g : Faults,
      let backup := readPages fl
      let count := pagesWithData backup
      let restored := restoreRun backup true g cut
      (stubMain g count (backup.take (count * PAGE_RAW)) cut).rc = 0 →
        restored.exit = .ok 0 ∧
        (∀ p < BLOCK_PAGES, ∀ c < PAGE_RAW,
          restored.final p c = if c < PAGE_DATA then fl p c else 0xFF) ∧
        describeMismatch (readPages restored.final) (afterWrite backup) = none) ∧
    (∀ msg, buildImage (readPages fl) payload = .error msg →
      ∀ s ∈ (installRun fl payload confirmed f).states, s = fl) ∧
    (∀ code, (installRun fl payload true f).exit = .ok code →
      let n := (payload.length + PAGE_DATA - 1) / PAGE_DATA
      let installed := (installRun fl payload true f).final
      code = 0 ∧ n ≤ MAX_PAYLOAD_PAGES ∧
        (∀ c < PAGE_DATA, installed 0 c =
          if c = PAGE_COUNT_OFFSET then BitVec.ofNat 8 n else fl 0 c) ∧
        ∀ p, 1 ≤ p → p ≤ n → ∀ c < PAGE_DATA,
          installed p c = payload.getD ((p - 1) * PAGE_DATA + c) 0xFF) := by
  have hlen := readPages_length fl
  refine ⟨?_, ?_, ?_⟩
  · intro cut _ g backup count restored hrc
    have hrestored : restored = writeVerified backup g cut := by
      simp only [restored, restoreRun, if_neg (not_not.mpr hlen), backup]
      rfl
    obtain ⟨hexit, hread⟩ := writeVerified_done hlen hrc
    rw [hrestored]
    refine ⟨hexit, ?_, ?_⟩
    · intro p hp c hc
      rw [column_of_readPages hlen hread hp hc, readPages_getD fl hp hc]
    · rw [hread]
      exact describeMismatch_self _
  · intro msg hmsg s hs
    rw [installRun_refused hmsg] at hs
    exact List.mem_singleton.mp hs
  · intro code hcode
    exact installRun_installed hcode

section quiet
variable {f : Faults} (he : f.erase = none) (hp : ∀ p, f.program p = none)
include hp

theorem programPages_quiet (buf : List Byte) (n p : Nat) (fl : Flash) :
    (programPages f buf n p fl).rc = 0 := by
  induction n generalizing p fl with
  | zero => rfl
  | succ n ih =>
    rw [programPages, hp p]
    exact ih _ _

include he

/-- A stub none of whose operations fails reports success. -/
theorem stubMain_quiet {count : Nat} (hcount : count ≤ NF_MAX_PAGES) (buf : List Byte) (fl : Flash) :
    (stubMain f count buf fl).rc = 0 := by
  rw [stubMain, if_neg (not_lt.mpr hcount), he]
  exact programPages_quiet hp buf count 0 erased

/-- An install of an image that passed the checks completes. -/
theorem installRun_quiet {fl : Flash} {payload image : List Byte} {n : Nat}
    (h : buildImage (readPages fl) payload = .ok (image, n)) :
    (installRun fl payload true f).exit = .ok 0 := by
  rw [installRun_confirmed h]
  exact (writeVerified_done (buildImage_ok (readPages_length fl) h).1
    (stubMain_quiet he hp (pagesWithData_blank image).1 _ fl)).1

end quiet

/-- An install starts from the block as it is. -/
theorem installRun_states (fl : Flash) (payload : List Byte) (confirmed : Bool) (f : Faults) :
    ∃ rest, (installRun fl payload confirmed f).states = fl :: rest := by
  have hstub (count : Nat) (buf : List Byte) : ∃ rest, (stubMain f count buf fl).states = fl :: rest := by
    unfold stubMain
    split
    · exact ⟨[], rfl⟩
    · split
      · exact ⟨_, rfl⟩
      · exact ⟨_, rfl⟩
  have hwrite (image : List Byte) : ∃ rest, (writePages image f fl).states = fl :: rest := by
    unfold writePages
    split
    · exact ⟨[], rfl⟩
    · exact hstub _ _
  unfold installRun
  cases buildImage (readPages fl) payload with
  | error msg => exact ⟨[], rfl⟩
  | ok built =>
    cases confirmed with
    | false => exact ⟨[], rfl⟩
    | true => exact hwrite built.1

theorem installRun_final_mem (fl : Flash) (payload : List Byte) (confirmed : Bool) (f : Faults) :
    (installRun fl payload confirmed f).final ∈ (installRun fl payload confirmed f).states := by
  obtain ⟨rest, hstates⟩ := installRun_states fl payload confirmed f
  rw [Outcome.final, hstates, List.getLastD_cons]
  exact List.getLastD_mem_cons

theorem header_slice (fl : Flash) {off n : Nat} (h : off + n ≤ PAGE_DATA) :
    slice ((readPages fl).take PAGE_DATA) off n = (List.range n).map fun i => fl 0 (off + i) := by
  apply List.ext_getElem?
  intro i
  by_cases hi : i < n
  · have hcol : off + i < PAGE_DATA := by omega
    have hraw : off + i < BLOCK_PAGES * PAGE_RAW := lt_trans hcol (by decide)
    have hpage : off + i < PAGE_RAW := lt_trans hcol (by decide)
    rw [slice_getElem? _ _ _ _ hi, List.getElem?_take_of_lt hcol, readPages_getElem? fl hraw,
      Nat.div_eq_of_lt hpage, Nat.mod_eq_of_lt hpage, List.getElem?_map, List.getElem?_range hi]
    rfl
  · have hslice : (slice ((readPages fl).take PAGE_DATA) off n).length ≤ n :=
      List.length_take_le _ _
    rw [List.getElem?_eq_none (by omega), List.getElem?_eq_none (by simp; omega)]

theorem header_getD (fl : Flash) {c : Nat} (h : c < PAGE_DATA) :
    ((readPages fl).take PAGE_DATA).getD c 0 = fl 0 c := by
  have hraw : c < PAGE_RAW := lt_trans h (by decide)
  have hcol := readPages_getD fl (p := 0) (by decide) hraw
  rwa [Nat.zero_mul, Nat.zero_add, List.getD_eq_getElem?_getD, ← List.getElem?_take_of_lt h,
    ← List.getD_eq_getElem?_getD] at hcol

/-- The headers that the install accepts. -/
theorem buildImage_accepts {fl : Flash} {payload : List Byte}
    (hsig : (List.range 8).map (fun i => fl 0 (SIG_OFFSET + i)) = SIGNATURE)
    (hchunks : (fl 0 CHUNKS_OFFSET).toNat * 512 = PAGE_DATA)
    (hinstalled : (fl 0 PAGE_COUNT_OFFSET).toNat ≤ MAX_PAYLOAD_PAGES)
    (hcount : (payload.length + PAGE_DATA - 1) / PAGE_DATA ≤ MAX_PAYLOAD_PAGES) :
    ∃ image, buildImage (readPages fl) payload =
      .ok (image, (payload.length + PAGE_DATA - 1) / PAGE_DATA) := by
  unfold buildImage
  simp only
  rw [header_slice fl (by decide), if_neg (not_not.mpr hsig), header_getD fl (by decide),
    header_getD fl (by decide), if_neg (not_not.mpr hchunks), if_neg (not_lt.mpr hinstalled),
    if_neg (not_lt.mpr hcount)]
  exact ⟨_, rfl⟩

def signedBlock : Flash := fun p c =>
  if p = 0 ∧ c < 14 then ([0, 0, 0, 0] ++ SIGNATURE ++ [4, 0]).getD c 0 else 0xFF

/-- Three bytes are installed, and the block is put back. -/
theorem bootloader_put_back_signed :
    let installed := installRun signedBlock [1, 2, 3] true ⟨none, fun _ => none⟩
    let restored := restoreRun (readPages signedBlock) true ⟨none, fun _ => none⟩ installed.final
    installed.exit = .ok 0 ∧ installed.final 1 2 = 3 ∧ restored.exit = .ok 0 ∧
      ∀ p < BLOCK_PAGES, ∀ c < PAGE_DATA, restored.final p c = signedBlock p c := by
  intro installed restored
  obtain ⟨image, hbuilt⟩ : ∃ image, buildImage (readPages signedBlock) [1, 2, 3] = .ok (image, _) :=
    buildImage_accepts (by decide) (by decide) (by decide) (by decide)
  have hexit : installed.exit = .ok 0 := installRun_quiet rfl (fun _ => rfl) hbuilt
  obtain ⟨hback, -, hinstalled⟩ := bootloader_put_back signedBlock [1, 2, 3] true
    ⟨none, fun _ => none⟩
  have hlast : installed.final ∈ installed.states := installRun_final_mem _ _ _ _
  obtain ⟨hdone, hcolumns, -⟩ := hback installed.final hlast ⟨none, fun _ => none⟩
    (stubMain_quiet rfl (fun _ => rfl) (pagesWithData_blank _).1 _ _)
  refine ⟨hexit, ?_, hdone, fun p hp c hc => ?_⟩
  · exact (hinstalled 0 hexit).2.2.2 1 (by decide) (by decide) 2 (by decide)
  · rw [hcolumns p hp c (lt_trans hc (by decide)), if_pos hc]

end AipcOs.Opennboot
