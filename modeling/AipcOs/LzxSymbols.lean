import AipcOs.LzxBits
import AipcOs.LzxTableRoom

/-! wincedecompr.py: __read_huff_sym, against the words of a canonical code. -/
namespace AipcOs.LzxSymbols
open ByteMemory MsbBits PrefixCode LzxBits LzxTable

/-- The loop of __read_huff_sym with `j` at `1 << e`: a symbol, or nothing when `j` runs out. -/
def walk (table : List Nat) (nsyms : Nat) (buffer : Word) : (e i : Nat) → Option (Option Nat)
  | 0, _ => some none
  | e + 1, i =>
    match table[i <<< 1 ||| (if buffer.toNat &&& 1 <<< e ≠ 0 then 1 else 0)]? with
    | none => none
    | some i => if i < nsyms then some (some i) else walk table nsyms buffer e i

def findSym (table : List Nat) (nsyms nbits : Nat) (b : BitBuffer) : Option (Option Nat) :=
  match table[peekBits nbits b]? with
  | none => none
  | some i => if i < nsyms then some (some i) else walk table nsyms b.buffer (32 - nbits) i

def readHuffSym (table lengths : List Nat) (nsyms nbits codeword : Nat) : Bits Nat := do
  ensureBits codeword
  let b ← get
  match ← findSym table nsyms nbits b with
  | none => return 0
  | some i =>
    let j ← lengths[i]?
    set (removeBits j b)
    return i

variable {nsyms nbits : Nat} {table : List Nat} {buffer : Word}

theorem and_bit_ne_zero (x e : Nat) : x &&& 1 <<< e ≠ 0 ↔ x.testBit e = true := by
  rw [Nat.one_shiftLeft, Nat.and_two_pow, Nat.mul_ne_zero_iff]
  cases x.testBit e <;> simp

theorem child_index (n x e : Nat) :
    n <<< 1 ||| (if x &&& 1 <<< e ≠ 0 then 1 else 0) = 2 * n + (x >>> e) % 2 := by
  have hbit : (if x &&& 1 <<< e ≠ 0 then 1 else 0) = (x >>> e) % 2 := by
    have h := Nat.toNat_testBit x e
    rw [← Nat.shiftRight_eq_div_pow] at h
    rw [← h]
    by_cases hx : x.testBit e = true
    · rw [if_pos ((and_bit_ne_zero x e).mpr hx), hx]
      rfl
    · rw [if_neg (fun hne => hx ((and_bit_ne_zero x e).mp hne)), Bool.not_eq_true _ |>.mp hx]
      rfl
  rw [hbit, ← Nat.shiftLeft_add_eq_or_of_lt (by omega : (x >>> e) % 2 < 2 ^ 1), Nat.shiftLeft_eq]
  omega

/-- From a node of the way, the loop ends at the symbol of the way. -/
theorem walk_eq {v k c sym : Nat} (hv : v = buffer.toNat >>> (16 - nbits))
    (hbits : nbits + k ≤ 16) (hc : cellAt nsyms table v k = some c) (hsym : table[c]? = some sym)
    (hlt : sym < nsyms) {j d n : Nat} (hj : j < k) (hd : cellAt nsyms table v j = some d)
    (hn : table[d]? = some n) (hle : nsyms ≤ n) :
    walk table nsyms buffer (32 - nbits - j) n = some (some sym) := by
  have hwalk (fuel j d n : Nat) (hk : k = j + fuel + 1) (hd : cellAt nsyms table v j = some d)
      (hn : table[d]? = some n) (hle : nsyms ≤ n) :
      walk table nsyms buffer (32 - nbits - j) n = some (some sym) := by
    induction fuel generalizing j d n with
    | zero =>
      have he : 32 - nbits - j = 31 - nbits - j + 1 := by omega
      have hcell := cellAt_succ.mpr ⟨d, n, hd, hn, hle, rfl⟩
      have hk' : k = j + 1 := by omega
      subst hk'
      rw [hc] at hcell
      have hshift : v >>> (15 - j) = buffer.toNat >>> (31 - nbits - j) := by
        rw [hv, ← Nat.shiftRight_add]
        congr 1
        omega
      rw [hshift] at hcell
      rw [he, walk, child_index, ← Option.some.inj hcell, hsym]
      simp only
      rw [if_pos hlt]
    | succ fuel ih =>
      have he : 32 - nbits - j = 31 - nbits - j + 1 := by omega
      have hcell := cellAt_succ.mpr ⟨d, n, hd, hn, hle, rfl⟩
      obtain ⟨d', n', hd', hn', hle'⟩ := cellAt_before (j := j + 1) (by omega) hc
      rw [hd'] at hcell
      have hshift : v >>> (15 - j) = buffer.toNat >>> (31 - nbits - j) := by
        rw [hv, ← Nat.shiftRight_add]
        congr 1
        omega
      rw [hshift] at hcell
      have hnext := ih (j + 1) d' n' (by omega) hd' hn' hle'
      rw [he, walk, child_index, ← Option.some.inj hcell, hn']
      simp only
      rw [if_neg (by omega)]
      have he' : 31 - nbits - j = 32 - nbits - (j + 1) := by omega
      rw [he', hnext]
  exact hwalk (k - j - 1) j d n (by omega) hd hn hle

theorem locate_lt {M v : Nat} {es : List (Nat × Nat)} {s : Nat} (h : locate M es v = some s) :
    v < span M es := by
  induction es generalizing v with
  | nil => cases h
  | cons e es ih =>
    rw [locate] at h
    rw [span]
    by_cases hv : v < 2 ^ (M - e.2)
    · omega
    · rw [if_neg hv] at h
      have := ih h
      omega

/-- A built table reads every word of its code. -/
theorem readHuffSym_reads {lengths : List Nat} {codeword s : Nat} (hbits : nbits < 16)
    (huse : Usable nsyms nbits lengths) (hleads : Leads nsyms nbits lengths table)
    (hs : s < nsyms) (hpos : 0 < lengths.getD s 0) (hcw : lengths.getD s 0 ≤ codeword)
    (hcw16 : codeword ≤ 16) :
    Reads (readHuffSym table lengths nsyms nbits codeword) (wordOf lengths nsyms s) s := by
  intro data start p b hat hw
  have hlen := wordOf_length hs hpos (hcw.trans hcw16)
  obtain ⟨b', hens, hat', hleft⟩ := ensureBits_at hat.1 (n := codeword) (Or.inl (by omega))
  have hle := hat'.left.2
  obtain ⟨v, hv⟩ : ∃ v, v = b'.buffer.toNat >>> (16 - nbits) := ⟨_, rfl⟩
  have hword : v / 2 ^ (nbits + 16 - (wordOf lengths nsyms s).length) =
      value (wordOf lengths nsyms s) := by
    have htop := top_at hat' (n := (wordOf lengths nsyms s).length) (by omega)
    rw [valueAt_of_spells hw] at htop
    rw [← htop, ← Nat.shiftRight_eq_div_pow, hv, ← Nat.shiftRight_add]
    congr 1
    omega
  have hasc : Ascending (nbits + 16) 0 (canonical lengths nsyms) :=
    (ascending_codedFrom (by omega)).mono (Nat.zero_le 1)
  have hloc := (locate_wordsFrom hasc (by rw [Nat.zero_mul, Nat.zero_add]; exact huse.span_le)
    (wordOf_mem hs hpos (hcw.trans hcw16)) hword).2
  rw [Nat.zero_mul, Nat.sub_zero] at hloc
  obtain ⟨k, c, sym, hc, hsym, hlt, hloc', hk⟩ := hleads v (locate_lt hloc)
  rw [hloc] at hloc'
  obtain rfl := Option.some.inj hloc'
  have hpeek : peekBits nbits b' = v >>> 16 := by
    rw [peekBits, Nat.mod_eq_of_lt (by omega), hv, ← Nat.shiftRight_add]
    congr 1
    omega
  have hslen : s < lengths.length := hs.trans_le huse.le
  have hl : lengths[s]? = some (lengths.getD s 0) := by
    rw [List.getElem?_eq_getElem hslen, List.getD_eq_getElem _ _ hslen]
  refine ⟨removeBits (lengths.getD s 0) b', ?_, ?_⟩
  · have hfound : findSym table nsyms nbits b' = some (some s) := by
      rw [findSym, hpeek]
      cases k with
      | zero =>
        obtain rfl := Option.some.inj hc
        rw [hsym]
        exact if_pos hlt
      | succ k =>
        obtain ⟨d, n, hd, hn, hle⟩ := cellAt_before (Nat.succ_pos k) hc
        obtain rfl := Option.some.inj hd
        rw [hn]
        change (if n < nsyms then _ else _) = _
        rw [if_neg (by omega)]
        exact walk_eq hv hk hc hsym hlt (Nat.succ_pos k) hd hn hle
    change (ensureBits codeword b >>= _) = _
    rw [hens]
    change ((findSym table nsyms nbits b').bind fun r => some (r, b')) >>= _ = _
    rw [hfound]
    change (lengths[s]?.bind fun j => some (j, b')) >>= _ = _
    rw [hl]
    rfl
  · rw [hlen]
    refine ⟨removeBits_at hat' (by omega), ?_⟩
    change b'.bits_left - (lengths.getD s 0 : Nat) < 32
    omega

/-- Every word of a code is read back through the table that is built for it. -/
theorem usable_code_reads {lengths : List Nat} {codeword : Nat}
    (hshape : Shape nsyms nbits table.length) (huse : Usable nsyms nbits lengths)
    (hcw : ∀ s < nsyms, lengths.getD s 0 ≤ codeword) (hcw16 : codeword ≤ 16) :
    ∃ status table', makeDecodeTable nsyms nbits lengths table = some (status, table') ∧
      ∀ s < nsyms, 0 < lengths.getD s 0 →
        Reads (readHuffSym table' lengths nsyms nbits codeword) (wordOf lengths nsyms s) s := by
  obtain ⟨status, table', hmake, -, hleads⟩ := makeDecodeTable_leads hshape huse
  refine ⟨status, table', hmake, ?_⟩
  intro s hs hpos
  exact readHuffSym_reads hshape.bits.2 huse hleads hs hpos (hcw s hs) hcw16

theorem usable_code_reads_gaps :
    ∃ status table', makeDecodeTable 8 4 [2, 3, 0, 6, 0, 0, 6, 0] (List.replicate 32 9) =
        some (status, table') ∧
      ∀ s < 8, 0 < [2, 3, 0, 6, 0, 0, 6, 0].getD s 0 →
        Reads (readHuffSym table' [2, 3, 0, 6, 0, 0, 6, 0] 8 4 16)
          (wordOf [2, 3, 0, 6, 0, 0, 6, 0] 8 s) s :=
  usable_code_reads ⟨by decide, by decide, by decide⟩ ⟨by decide, by decide, by decide⟩
    (by decide) le_rfl

end AipcOs.LzxSymbols
