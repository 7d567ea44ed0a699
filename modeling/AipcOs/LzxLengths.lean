import AipcOs.LzxSymbols

/-! wincedecompr.py: __read_lengths, the transmission of code lengths as differences. -/
namespace AipcOs.LzxLengths
open MsbBits PrefixCode LzxBits LzxTable LzxSymbols

def PRETREE_MAXSYMBOLS : Nat := 20
def PRETREE_TABLEBITS : Nat := 6
def PRETREE_MAX_CODEWORD : Nat := 16

structure Pretree where
  table : List Nat
  len : List Nat

def putAt (lens : List Nat) (x v : Nat) : Option (List Nat) :=
  if x < lens.length then some (lens.set x v) else none

/-- for _ in range(y): lens[x] = v; x += 1. -/
def putRun (v : Nat) : (y x : Nat) → List Nat → Option (List Nat)
  | 0, _, lens => some lens
  | y + 1, x, lens => do putRun v y (x + 1) (← putAt lens x v)

def readEach (width : Nat) : (n x : Nat) → List Nat → Bits (List Nat)
  | 0, _, lens => return lens
  | n + 1, x, lens => do
    let v ← readBits width
    readEach width n (x + 1) (← putAt lens x v)

/-- (lens[x] + 17 - z) % 17. -/
def difference (old z : Nat) : Nat := (((old : Int) + 17 - z) % 17).toNat

def readHuffSymPretree (pre : Pretree) : Bits Nat :=
  readHuffSym pre.table pre.len PRETREE_MAXSYMBOLS PRETREE_TABLEBITS PRETREE_MAX_CODEWORD

/-- while x < last; every round takes `x` on by one at least. -/
def lengthsLoop (pre : Pretree) (last : Nat) : (rounds x : Nat) → List Nat → Bits (List Nat)
  | 0, _, lens => return lens
  | rounds + 1, x, lens => do
    if x < last then
      let z ← readHuffSymPretree pre
      if z = 17 then
        let y := (← readBits 4) + 4
        lengthsLoop pre last rounds (x + y) (← putRun 0 y x lens)
      else if z = 18 then
        let y := (← readBits 5) + 20
        lengthsLoop pre last rounds (x + y) (← putRun 0 y x lens)
      else if z = 19 then
        let y := (← readBits 1) + 4
        let z ← readHuffSymPretree pre
        let old ← lens[x]?
        lengthsLoop pre last rounds (x + y) (← putRun (difference old z) y x lens)
      else
        let old ← lens[x]?
        lengthsLoop pre last rounds (x + 1) (← putAt lens x (difference old z))
    else return lens

def readLengths (pre : Pretree) (lens : List Nat) (first last : Nat) :
    Bits (Pretree × List Nat) := do
  let len ← readEach 4 20 0 pre.len
  let (_, table) ← makeDecodeTable PRETREE_MAXSYMBOLS PRETREE_TABLEBITS len pre.table
  let pre : Pretree := { table, len }
  return (pre, ← lengthsLoop pre last (last - first) first lens)

def splice (lens : List Nat) (x : Nat) (vs : List Nat) : List Nat :=
  lens.take x ++ vs ++ lens.drop (x + vs.length)

inductive LengthOp where
  | zeros (y : Nat)
  | manyZeros (y : Nat)
  | same (y z : Nat)
  | one (z : Nat)

namespace LengthOp

def count : LengthOp → Nat
  | zeros y => y + 4
  | manyZeros y => y + 20
  | same y _ => y + 4
  | one _ => 1

def stored (old : Nat) : LengthOp → Nat
  | zeros _ => 0
  | manyZeros _ => 0
  | same _ z => difference old z
  | one z => difference old z

def word (pre : List Nat) : LengthOp → List Bool
  | zeros y => wordOf pre 20 17 ++ bits 4 y
  | manyZeros y => wordOf pre 20 18 ++ bits 5 y
  | same y z => wordOf pre 20 19 ++ (bits 1 y ++ wordOf pre 20 z)
  | one z => wordOf pre 20 z

def Valid (pre : List Nat) : LengthOp → Prop
  | zeros y => y < 16 ∧ 0 < pre.getD 17 0
  | manyZeros y => y < 32 ∧ 0 < pre.getD 18 0
  | same y z => y < 2 ∧ z < 20 ∧ 0 < pre.getD 19 0 ∧ 0 < pre.getD z 0
  | one z => z < 17 ∧ 0 < pre.getD z 0

def apply (op : LengthOp) (x : Nat) (lens : List Nat) : List Nat :=
  splice lens x (List.replicate op.count (op.stored (lens.getD x 0)))

def run : List LengthOp → (x : Nat) → List Nat → List Nat
  | [], _, lens => lens
  | op :: ops, x, lens => run ops (x + op.count) (op.apply x lens)

def Covers (last : Nat) : List LengthOp → (x : Nat) → Prop
  | [], x => last ≤ x
  | op :: ops, x => x < last ∧ Covers last ops (x + op.count)

instance (pre : List Nat) (op : LengthOp) : Decidable (op.Valid pre) :=
  match op with
  | zeros y => inferInstanceAs (Decidable (y < 16 ∧ 0 < pre.getD 17 0))
  | manyZeros y => inferInstanceAs (Decidable (y < 32 ∧ 0 < pre.getD 18 0))
  | same y z =>
    inferInstanceAs (Decidable (y < 2 ∧ z < 20 ∧ 0 < pre.getD 19 0 ∧ 0 < pre.getD z 0))
  | one z => inferInstanceAs (Decidable (z < 17 ∧ 0 < pre.getD z 0))

def decideCovers (last : Nat) : (ops : List LengthOp) → (x : Nat) → Decidable (Covers last ops x)
  | [], x => inferInstanceAs (Decidable (last ≤ x))
  | op :: ops, x =>
    have := decideCovers last ops (x + op.count)
    inferInstanceAs (Decidable (x < last ∧ Covers last ops (x + op.count)))

instance (last : Nat) (ops : List LengthOp) (x : Nat) : Decidable (Covers last ops x) :=
  decideCovers last ops x

theorem count_pos (op : LengthOp) : 0 < op.count := by
  cases op <;> simp [count]

end LengthOp

structure Sent where
  pretree : List Nat
  ops : List LengthOp

namespace Sent

def word (t : Sent) : List Bool :=
  t.pretree.flatMap (bits 4) ++ t.ops.flatMap (LengthOp.word t.pretree)

structure Valid (t : Sent) (first last : Nat) : Prop where
  length : t.pretree.length = 20
  le : ∀ l ∈ t.pretree, l < 16
  usable : Usable 20 6 t.pretree
  ops : ∀ op ∈ t.ops, op.Valid t.pretree
  covers : LengthOp.Covers last t.ops first

end Sent

variable {lens : List Nat} {x : Nat}

theorem splice_length {vs : List Nat} (h : x + vs.length ≤ lens.length) :
    (splice lens x vs).length = lens.length := by
  simp only [splice, List.length_append, List.length_take, List.length_drop]
  omega

theorem splice_nil (lens : List Nat) (x : Nat) : splice lens x [] = lens := by
  simp [splice]

theorem splice_set {v : Nat} {vs : List Nat} (h : x < lens.length) :
    splice (lens.set x v) (x + 1) vs = splice lens x (v :: vs) := by
  simp only [splice, List.length_cons]
  rw [List.take_add_one, List.getElem?_set_self h, List.take_set_of_le le_rfl,
    List.drop_set_of_lt (by omega)]
  simp only [Option.toList_some, List.append_assoc, List.singleton_append]
  congr 3
  omega

theorem putAt_eq (h : x < lens.length) (v : Nat) : putAt lens x v = some (lens.set x v) :=
  if_pos h

theorem putRun_eq {v y : Nat} (h : x + y ≤ lens.length) :
    putRun v y x lens = some (splice lens x (List.replicate y v)) := by
  induction y generalizing x lens with
  | zero => rw [putRun, List.replicate_zero, splice_nil]
  | succ y ih =>
    have hx : x < lens.length := by omega
    rw [putRun, putAt_eq hx, List.replicate_succ, ← splice_set hx]
    exact ih (by rw [List.length_set]; omega)

theorem lift_reads {α β : Type} {o : Option α} {a : α} {f : α → Bits β} {w : List Bool} {c : β}
    (ho : o = some a) (hf : Reads (f a) w c) : Reads (do let r ← o; f r) w c := by
  subst ho
  exact hf

theorem readEach_reads {width : Nat} (hwidth : width ≤ 17) {vs : List Nat}
    (hvs : ∀ v ∈ vs, v < 2 ^ width) (h : x + vs.length ≤ lens.length) :
    Reads (readEach width vs.length x lens) (vs.flatMap (bits width)) (splice lens x vs) := by
  induction vs generalizing x lens with
  | nil =>
    rw [splice_nil]
    exact Reads.pure lens
  | cons v vs ih =>
    rw [List.length_cons] at h
    have hx : x < lens.length := by omega
    have hv := readBits_reads hwidth (hvs v List.mem_cons_self)
    have hrest : Reads (readEach width vs.length (x + 1) (lens.set x v)) (vs.flatMap (bits width))
        (splice (lens.set x v) (x + 1) vs) :=
      ih (fun w hw => hvs w (List.mem_cons_of_mem v hw)) (by rw [List.length_set]; omega)
    rw [splice_set hx] at hrest
    rw [List.length_cons, List.flatMap_cons, readEach]
    exact hv.bind (lift_reads (putAt_eq hx v) hrest)

structure Ready (pre : Pretree) (pretree : List Nat) : Prop where
  usable : Usable 20 6 pre.len
  leads : Leads 20 6 pre.len pre.table
  same : ∀ s < 20, pre.len.getD s 0 = pretree.getD s 0
  le : ∀ s < 20, pretree.getD s 0 < 16

theorem Ready.reads {pre : Pretree} {pretree : List Nat} (h : Ready pre pretree) {s : Nat}
    (hs : s < 20) (hpos : 0 < pretree.getD s 0) :
    Reads (readHuffSymPretree pre) (wordOf pretree 20 s) s := by
  rw [← wordOf_congr h.same]
  have hsame := h.same s hs
  have hle := h.le s hs
  have hcodeword : pre.len.getD s 0 ≤ 16 := by omega
  exact readHuffSym_reads (by decide) h.usable h.leads hs (by omega) hcodeword le_rfl

theorem getElem?_getD {i : Nat} (h : i < lens.length) : lens[i]? = some (lens.getD i 0) := by
  rw [List.getElem?_eq_getElem h, List.getD_eq_getElem _ _ h]

theorem bind_eq_bind {α β : Type} {a : Bits α} {f g : α → Bits β} (h : ∀ x, f x = g x) :
    a >>= f = a >>= g := congrArg (a >>= ·) (funext h)

/-- The rounds that are given are enough: more of them change nothing. -/
theorem lengthsLoop_rounds {pre : Pretree} {last n m : Nat} (hn : last ≤ x + n)
    (hm : last ≤ x + m) : lengthsLoop pre last n x lens = lengthsLoop pre last m x lens := by
  induction n generalizing m x lens with
  | zero =>
    cases m with
    | zero => rfl
    | succ m => rw [lengthsLoop, lengthsLoop, if_neg (by omega)]
  | succ n ih =>
    cases m with
    | zero => rw [lengthsLoop, lengthsLoop, if_neg (by omega)]
    | succ m =>
      have hnext (y : Nat) (lens' : List Nat) (hy : 0 < y) :
          lengthsLoop pre last n (x + y) lens' = lengthsLoop pre last m (x + y) lens' :=
        ih (by omega) (by omega)
      rw [lengthsLoop, lengthsLoop]
      by_cases hx : x < last
      · rw [if_pos hx, if_pos hx]
        refine bind_eq_bind fun z => ?_
        by_cases h17 : z = 17
        · rw [if_pos h17, if_pos h17]
          exact bind_eq_bind fun y => bind_eq_bind fun lens' => hnext _ _ (Nat.succ_pos _)
        rw [if_neg h17, if_neg h17]
        by_cases h18 : z = 18
        · rw [if_pos h18, if_pos h18]
          exact bind_eq_bind fun y => bind_eq_bind fun lens' => hnext _ _ (Nat.succ_pos _)
        rw [if_neg h18, if_neg h18]
        by_cases h19 : z = 19
        · rw [if_pos h19, if_pos h19]
          exact bind_eq_bind fun y => bind_eq_bind fun z => bind_eq_bind fun old =>
            bind_eq_bind fun lens' => hnext _ _ (Nat.succ_pos _)
        rw [if_neg h19, if_neg h19]
        exact bind_eq_bind fun old => bind_eq_bind fun lens' => hnext _ _ Nat.one_pos
      · rw [if_neg hx, if_neg hx]

namespace LengthOp

variable {pre : Pretree} {pretree : List Nat} {op : LengthOp}

theorem count_le (h : op.Valid pretree) : op.count ≤ 51 := by
  cases op with
  | zeros y => exact (Nat.add_lt_add_right h.1 4).le.trans (by decide)
  | manyZeros y => exact Nat.le_of_lt_succ (Nat.add_lt_add_right h.1 20)
  | same y z => exact (Nat.add_lt_add_right h.1 4).le.trans (by decide)
  | one z => exact Nat.one_le_ofNat

theorem apply_length (h : x + op.count ≤ lens.length) : (op.apply x lens).length = lens.length := by
  rw [apply, splice_length]
  rwa [List.length_replicate]

/-- One round of the loop does one operation. -/
theorem reads (hpre : Ready pre pretree) (hop : op.Valid pretree) {last rounds : Nat}
    (hx : x < last) (hlen : x + op.count ≤ lens.length) {w : List Bool} {lens' : List Nat}
    (hrest : Reads (lengthsLoop pre last rounds (x + op.count) (op.apply x lens)) w lens') :
    Reads (lengthsLoop pre last (rounds + 1) x lens) (op.word pretree ++ w) lens' := by
  have hpos := op.count_pos
  have hold : lens[x]? = some (lens.getD x 0) := getElem?_getD (by omega)
  have hput (v : Nat) := putRun_eq (v := v) (y := op.count) (x := x) hlen
  rw [lengthsLoop, if_pos hx]
  cases op with
  | zeros y =>
    rw [word, List.append_assoc]
    refine (hpre.reads (s := 17) (by decide) hop.2).bind ?_
    rw [if_pos rfl]
    exact (readBits_reads (by decide) hop.1).bind (lift_reads (hput 0) hrest)
  | manyZeros y =>
    rw [word, List.append_assoc]
    refine (hpre.reads (s := 18) (by decide) hop.2).bind ?_
    rw [if_neg (by decide), if_pos rfl]
    exact (readBits_reads (by decide) hop.1).bind (lift_reads (hput 0) hrest)
  | same y z =>
    obtain ⟨hy, hz, h19, hzpos⟩ := hop
    rw [word, List.append_assoc, List.append_assoc]
    refine (hpre.reads (s := 19) (by decide) h19).bind ?_
    rw [if_neg (by decide), if_neg (by decide), if_pos rfl]
    exact (readBits_reads (by decide) hy).bind
      ((hpre.reads hz hzpos).bind (lift_reads hold (lift_reads (hput _) hrest)))
  | one z =>
    obtain ⟨hz, hzpos⟩ := hop
    refine (hpre.reads (s := z) (by omega) hzpos).bind ?_
    rw [if_neg (by omega), if_neg (by omega), if_neg (by omega)]
    refine lift_reads hold (lift_reads (putAt_eq (by omega) _) ?_)
    rw [apply, count, List.replicate_one, ← splice_set (by omega), splice_nil] at hrest
    exact hrest

theorem run_reads (hpre : Ready pre pretree) {ops : List LengthOp} {last rounds : Nat}
    (hops : ∀ op ∈ ops, op.Valid pretree) (hcov : Covers last ops x)
    (hrounds : last ≤ x + rounds) (hlen : last + 50 ≤ lens.length) :
    Reads (lengthsLoop pre last rounds x lens) (ops.flatMap (word pretree)) (run ops x lens) := by
  induction ops generalizing x rounds lens with
  | nil =>
    have hstop : ¬ x < last := Nat.not_lt.mpr hcov
    cases rounds with
    | zero => exact Reads.pure lens
    | succ rounds =>
      rw [lengthsLoop, if_neg hstop]
      exact Reads.pure lens
  | cons op ops ih =>
    obtain ⟨hx, hcov'⟩ := hcov
    have hop := hops op List.mem_cons_self
    have hcount := count_le hop
    have hpos := op.count_pos
    have hfit : x + op.count ≤ lens.length := by omega
    cases rounds with
    | zero => omega
    | succ rounds =>
      exact reads hpre hop hx hfit (ih (fun o ho => hops o (List.mem_cons_of_mem op ho)) hcov'
        (by omega) (by rw [apply_length hfit]; exact hlen))

theorem run_length {ops : List LengthOp} {last : Nat} (hops : ∀ op ∈ ops, op.Valid pretree)
    (hcov : Covers last ops x) (hlen : last + 50 ≤ lens.length) :
    (run ops x lens).length = lens.length := by
  induction ops generalizing x lens with
  | nil => rfl
  | cons op ops ih =>
    obtain ⟨hx, hcov'⟩ := hcov
    have hcount := count_le (hops op List.mem_cons_self)
    have happ : (op.apply x lens).length = lens.length := apply_length (by omega)
    rw [run, ih (fun o ho => hops o (List.mem_cons_of_mem op ho)) hcov' (by rwa [happ]), happ]

end LengthOp

theorem splice_getD {vs : List Nat} (h : x + vs.length ≤ lens.length) (i : Nat) :
    (splice lens x vs).getD i 0 =
      if x ≤ i ∧ i < x + vs.length then vs.getD (i - x) 0 else lens.getD i 0 := by
  have htake : (lens.take x).length = x := by
    rw [List.length_take]
    omega
  rw [splice, List.append_assoc]
  by_cases hlo : i < x
  · rw [List.getD_append _ _ _ _ (by omega), if_neg (by omega), List.getD_eq_getElem?_getD,
      List.getElem?_take_of_lt hlo, ← List.getD_eq_getElem?_getD]
  · rw [List.getD_append_right _ _ _ _ (by omega), htake]
    by_cases hhi : i < x + vs.length
    · rw [List.getD_append _ _ _ _ (by omega), if_pos (by omega)]
    · rw [List.getD_append_right _ _ _ _ (by omega), if_neg (by omega), List.getD_eq_getElem?_getD,
        List.getElem?_drop, ← List.getD_eq_getElem?_getD]
      congr 1
      omega

/-- The lengths that are sent arrive. -/
theorem readLengths_reads {pre : Pretree} {t : Sent} {first last : Nat}
    (ht : t.Valid first last) (htable : pre.table.length = 2 ^ 6 + 2 * 20)
    (hpre : 20 ≤ pre.len.length) (hlen : last + 50 ≤ lens.length) :
    ∃ pre' : Pretree, pre'.table.length = pre.table.length ∧ pre'.len.length = pre.len.length ∧
      Reads (readLengths pre lens first last) t.word (pre', LengthOp.run t.ops first lens) := by
  have hfit : 0 + t.pretree.length ≤ pre.len.length := by
    rw [ht.length]
    omega
  have hsame : ∀ s < 20, t.pretree.getD s 0 = (splice pre.len 0 t.pretree).getD s 0 := by
    intro s hs
    rw [splice_getD hfit, if_pos (by rw [ht.length]; omega), Nat.sub_zero]
  have hsize := splice_length hfit
  have huse := ht.usable.congr hsame (by omega)
  have hshape : Shape 20 6 pre.table.length := ⟨by decide, by decide, htable⟩
  obtain ⟨status, table', hmake, htab, hleads⟩ := makeDecodeTable_leads hshape huse
  have hready : Ready ⟨table', splice pre.len 0 t.pretree⟩ t.pretree := by
    refine ⟨huse, hleads, fun s hs => (hsame s hs).symm, ?_⟩
    intro s hs
    have hs' : s < t.pretree.length := by
      rw [ht.length]
      exact hs
    rw [List.getD_eq_getElem _ _ hs']
    exact ht.le _ (List.getElem_mem hs')
  refine ⟨⟨table', splice pre.len 0 t.pretree⟩, htab, hsize, ?_⟩
  have heach : Reads (readEach 4 t.pretree.length 0 pre.len) (t.pretree.flatMap (bits 4))
      (splice pre.len 0 t.pretree) := readEach_reads (by decide) ht.le hfit
  rw [ht.length] at heach
  refine heach.bind (lift_reads hmake ?_)
  exact (LengthOp.run_reads hready ht.ops ht.covers (by omega) hlen).bind_pure fun lens' => (_, lens')

theorem getD_le {m : Nat} (h : ∀ v ∈ lens, v ≤ m) (i : Nat) :
    lens.getD i 0 ≤ m := by
  by_cases hi : i < lens.length
  · rw [List.getD_eq_getElem _ _ hi]
    exact h _ (List.getElem_mem hi)
  · rw [List.getD_eq_default _ _ (by omega)]
    exact Nat.zero_le m

def sendEach (lens : List Nat) : (x : Nat) → List Nat → List LengthOp
  | _, [] => []
  | x, v :: vs => .one (difference (lens.getD x 0) v) :: sendEach lens (x + 1) vs

theorem difference_lt (old z : Nat) : difference old z < 17 := by
  rw [difference]
  omega

theorem difference_difference {old v : Nat} (hold : old ≤ 16) (hv : v ≤ 16) :
    difference old (difference old v) = v := by
  rw [difference, difference]
  omega

theorem sendEach_congr {lens' : List Nat} {vs : List Nat}
    (h : ∀ i ≥ x, lens.getD i 0 = lens'.getD i 0) : sendEach lens x vs = sendEach lens' x vs := by
  induction vs generalizing x with
  | nil => rfl
  | cons v vs ih =>
    rw [sendEach, sendEach, h x le_rfl, ih fun i hi => h i (by omega)]

theorem run_sendEach {vs : List Nat} (hold : ∀ i, lens.getD i 0 ≤ 16) (hnew : ∀ v ∈ vs, v ≤ 16)
    (h : x + vs.length ≤ lens.length) :
    LengthOp.run (sendEach lens x vs) x lens = splice lens x vs := by
  induction vs generalizing x lens with
  | nil => exact (splice_nil lens x).symm
  | cons v vs ih =>
    rw [List.length_cons] at h
    have hx : x < lens.length := by omega
    have hv : v ≤ 16 := hnew v List.mem_cons_self
    have happ : (LengthOp.one (difference (lens.getD x 0) v)).apply x lens = lens.set x v := by
      rw [LengthOp.apply, LengthOp.stored, LengthOp.count, List.replicate_one,
        difference_difference (hold x) hv, ← splice_set hx, splice_nil]
    have hset (i : Nat) : (lens.set x v).getD i 0 = if i = x then v else lens.getD i 0 := by
      rw [List.getD_eq_getElem?_getD, List.getElem?_set, List.getD_eq_getElem?_getD]
      by_cases hi : i = x
      · subst hi
        simp [hx]
      · rw [if_neg (Ne.symm hi), if_neg hi]
    have hsend : sendEach lens (x + 1) vs = sendEach (lens.set x v) (x + 1) vs := by
      apply sendEach_congr
      intro i hi
      rw [hset, if_neg (by omega)]
    rw [sendEach, LengthOp.run, happ, LengthOp.count, hsend, ih _
      (fun u hu => hnew u (List.mem_cons_of_mem v hu)) (by rw [List.length_set]; omega),
      splice_set hx]
    intro i
    rw [hset]
    split
    · exact hv
    · exact hold i

theorem sendEach_covers (vs : List Nat) : LengthOp.Covers (x + vs.length) (sendEach lens x vs) x := by
  induction vs generalizing x with
  | nil => exact le_rfl
  | cons v vs ih =>
    have hrec := ih (x := x + 1)
    rw [Nat.add_assoc, Nat.add_comm 1] at hrec
    exact ⟨Nat.lt_add_of_pos_right (Nat.succ_pos _), hrec⟩

theorem sendEach_valid {pretree : List Nat} (h : ∀ s < 17, 0 < pretree.getD s 0) (vs : List Nat) :
    ∀ op ∈ sendEach lens x vs, op.Valid pretree := by
  induction vs generalizing x with
  | nil => exact List.forall_mem_nil _
  | cons v vs ih =>
    exact List.forall_mem_cons.mpr ⟨⟨difference_lt _ _, h _ (difference_lt _ _)⟩, ih⟩

/-- Any lengths can be sent over any others. -/
theorem lengths_arrive {pre : Pretree} {pretree news : List Nat} {first : Nat}
    (hpretree : pretree.length = 20 ∧ ∀ l ∈ pretree, l < 16) (huse : Usable 20 6 pretree)
    (hwords : ∀ s < 17, 0 < pretree.getD s 0) (hnews : ∀ v ∈ news, v ≤ 16)
    (hold : ∀ v ∈ lens, v ≤ 16)
    (hpre : pre.table.length = 2 ^ 6 + 2 * 20 ∧ 20 ≤ pre.len.length)
    (hlen : first + news.length + 50 ≤ lens.length) :
    ∃ pre', Reads (readLengths pre lens first (first + news.length))
      (Sent.word ⟨pretree, sendEach lens first news⟩) (pre', splice lens first news) := by
  have ht : Sent.Valid ⟨pretree, sendEach lens first news⟩ first (first + news.length) :=
    ⟨hpretree.1, hpretree.2, huse, sendEach_valid hwords news, sendEach_covers news⟩
  obtain ⟨pre', -, -, hread⟩ := readLengths_reads ht hpre.1 hpre.2 hlen
  rw [run_sendEach (getD_le hold) hnews (by omega)] at hread
  exact ⟨pre', hread⟩

theorem lengths_arrive_three :
    ∃ pre', Reads (readLengths ⟨List.replicate 104 0, List.replicate 84 0⟩
        (List.replicate 60 3) 4 (4 + [16, 0, 7].length))
      (Sent.word ⟨List.replicate 12 4 ++ List.replicate 8 5,
        sendEach (List.replicate 60 3) 4 [16, 0, 7]⟩)
      (pre', splice (List.replicate 60 3) 4 [16, 0, 7]) :=
  lengths_arrive (by decide) (usable_of_kraft (by decide) (by decide) (by decide)) (by decide)
    (by decide) (by decide) (by decide) (by decide)

end AipcOs.LzxLengths
