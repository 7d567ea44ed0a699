import AipcOs.PatchFinder

/-! lib/pf.c with two patches in one set: a long pattern that is compared with the words that are
there, and behind it a short one that is compared with the words that were read ahead. -/
namespace AipcOs.PatchPair
open ByteMemory WordPattern PatchFinder

/-- What a read of eight words ahead can see of the writes. -/
def late (ws : List (Nat × Word)) : List (Nat × Word) := ws.filter fun p => 8 ≤ p.1

/-- The places of the patterns overlap at most where `A` begins with the last word of `B`; then
`B` writes over it. -/
structure Pair (A B : List (Entry 32)) (wa wb : List (Nat × Word)) : Prop where
  long : 8 ≤ A.length
  short : 2 ≤ B.length ∧ B.length < 8
  a : Sound A wa
  b : Sound B wb
  apart : ∀ d < A.length, Apart A B d
  seen : ∀ d < A.length, Apart (after A (late wa)) B d
  behind : ∀ d < B.length - 1, Apart B A d
  shown : ∀ d < B.length, Apart (after B wb) A d

def fill (m : Image 32) (ws : List (Nat × Word)) : Option Nat → Image 32
  | none => m
  | some i => write m i ws

def patched (m : Image 32) (wa wb : List (Nat × Word)) (fa fb : Option Nat) : Image 32 :=
  fill (fill m wa fa) wb fb

def Shown (B : List (Entry 32)) (fb : Option Nat) (i : Nat) : Prop :=
  ∀ j ∈ fb, i ≠ j + (B.length - 1)

instance (B : List (Entry 32)) (fb : Option Nat) (i : Nat) : Decidable (Shown B fb i) :=
  inferInstanceAs (Decidable (∀ j ∈ fb, i ≠ j + (B.length - 1)))

variable {A B P : List (Entry 32)} {wa wb ws : List (Nat × Word)} {fa fb : Option Nat}
  {m : Image 32} {index i j : Nat} {reads : List Word}

theorem late_inside (hs : Sound P ws) : ∀ p ∈ late ws, p.1 < P.length := fun p hp =>
  hs.inside p (List.mem_of_mem_filter hp)

theorem write_late_before (hj : j < i + 8) : write m i (late ws) j = m j := by
  refine write_other fun p hp => ?_
  have hlate := of_decide_eq_true (List.mem_filter.mp hp).2
  omega

/-- Behind the eight words the late writes are all. -/
theorem write_late (hj : i + 8 ≤ j) : write m i (late ws) j = write m i ws j := by
  induction ws generalizing m with
  | nil => rfl
  | cons p ws ih =>
    by_cases hlate : 8 ≤ p.1
    · rw [late, List.filter_cons_of_pos (by simpa using hlate)]
      exact ih
    · have hsame : Function.update m (i + p.1) p.2 j = m j :=
        Function.update_of_ne (by omega) _ _
      rw [late, List.filter_cons_of_neg (by simpa using hlate), write, write_congr hsame]
      exact ih

structure Inv (A B : List (Entry 32)) (wa : List (Nat × Word)) (m : Image 32) (index : Nat)
    (reads : List Word) (fa fb : Option Nat) : Prop where
  a : ∀ i ∈ fa, i < index ∧ Stands A m i ∧ Shown B fb i
  b : ∀ j ∈ fb, j < index ∧ Stands B m j
  length : reads.length = 8
  reads : ∀ k < 8, reads.getD k 0 = fill m (late wa) fa (index + k)

/-- Two places that are shown do not overlap. -/
theorem places (hp : Pair A B wa wb) (ha : Stands A m i) (hshown : i ≠ j + (B.length - 1))
    (hb : Stands B m j) : i + A.length ≤ j ∨ j + B.length ≤ i := by
  by_contra hnear
  obtain hle | hle := Nat.le_total i j
  · obtain ⟨d, rfl⟩ := Nat.exists_eq_add_of_le hle
    exact (hp.apart d (by omega)).not_stands ha hb
  · obtain ⟨d, rfl⟩ := Nat.exists_eq_add_of_le hle
    exact (hp.behind d (by omega)).not_stands hb ha

namespace Inv

/-- The short pattern stands where it has fired, whatever the long one has written. -/
theorem stands_b (h : Inv A B wa m index reads fa fb) (hp : Pair A B wa wb) (hj : j ∈ fb) :
    Stands B (fill m wa fa) j := by
  obtain ⟨-, hb⟩ := h.b j hj
  cases fa with
  | none => exact hb
  | some i =>
    obtain ⟨-, ha, hshown⟩ := h.a i rfl
    have hplaces := places hp ha (hshown j hj) hb
    refine (stands_congr fun k hk => write_outside hp.a.inside ?_).mpr hb
    omega

theorem stands_a (h : Inv A B wa m index reads fa fb) (hp : Pair A B wa wb) :
    Stands A (fill m wa fa) index ↔ Stands A m index := by
  cases fa with
  | none => exact Iff.rfl
  | some i =>
    obtain ⟨hlt, ha, -⟩ := h.a i rfl
    exact hp.a.stands_iff ha hlt

theorem matchA (h : Inv A B wa m index reads fa fb) (hp : Pair A B wa wb) :
    Stands A (patched m wa wb fa fb) index ↔ Stands A m index ∧ Shown B fb index := by
  rw [← h.stands_a hp]
  cases fb with
  | none =>
    constructor
    · intro hs
      refine ⟨hs, fun j hj => ?_⟩
      cases hj
    · exact And.left
  | some j =>
    have hb := h.stands_b hp rfl
    obtain ⟨hlt, -⟩ := h.b j rfl
    have hlen := hp.short.1
    have hj : j + (index - j) = index := Nat.add_sub_cancel' hlt.le
    by_cases hnear : index < j + B.length
    · have hnot := (hp.shown (index - j) (by omega)).not_stands hb.after
      rw [hj] at hnot
      refine iff_of_false hnot fun hA => ?_
      have hne := hA.2 j rfl
      have hclash := (hp.behind (index - j) (by omega)).not_stands hb
      rw [hj] at hclash
      exact hclash hA.1
    · have hsame : Stands A (patched m wa wb fa (some j)) index ↔ Stands A (fill m wa fa) index :=
        stands_congr fun k hk => write_outside hp.b.inside (by omega)
      rw [hsame]
      refine ⟨fun hs => ⟨hs, fun i hi hidx => ?_⟩, And.left⟩
      cases hi
      omega

/-- The words that were read ahead show the short pattern where it stands in the image as it was. -/
theorem matchB (h : Inv A B wa m index reads fa fb) (hp : Pair A B wa wb) (stream : Image 32) :
    maskmatchMatch32 B reads stream = true ↔ Stands B m index := by
  have hshort := hp.short.2
  have hseen : Stands B (fill m (late wa) fa) index ↔ Stands B m index := by
    cases fa with
    | none => exact Iff.rfl
    | some i =>
      obtain ⟨hlt, ha, -⟩ := h.a i rfl
      exact stands_behind ha (late_inside hp.a) hlt.le (fun hin => hp.apart _ (by omega))
        fun hin => hp.seen _ (by omega)
  rw [match32_iff, if_pos hshort, ← hseen]
  constructor
  · intro hs k hk
    have hfit := hs k hk
    rw [Nat.zero_add] at hfit
    rw [← h.reads k (by omega)]
    exact hfit
  · intro hs k hk
    have hfit := hs k hk
    rw [← h.reads k (by omega)] at hfit
    rw [Nat.zero_add]
    exact hfit

/-- At one place only one of the patterns stands. -/
theorem not_both (hp : Pair A B wa wb) (ha : Stands A m index) : ¬ Stands B m index :=
  (hp.apart 0 (Nat.zero_lt_of_lt hp.long)).not_stands ha

def now (hit : Prop) [Decidable hit] (index : Nat) (f : Option Nat) : Option Nat :=
  if hit then some index else f

theorem now_le {hit : Prop} [Decidable hit] {f : Option Nat} (hf : ∀ i ∈ f, i < index)
    (hi : i ∈ now hit index f) : i ≤ index := by
  rw [now] at hi
  split at hi
  · exact (Option.some.inj hi).ge
  · exact (hf i hi).le

/-- What has been read ahead before a patch fires, it does not change. -/
theorem fill_now {hit : Prop} [Decidable hit] {f : Option Nat} (hfirst : hit → f = none)
    (hj : j < index + 8) : fill m (late ws) (now hit index f) j = fill m (late ws) f j := by
  rw [now]
  split
  · rename_i h
    rw [hfirst h]
    exact write_late_before hj
  · rfl

/-- The word that is read next has what the patches have written there. -/
theorem patched_next (hp : Pair A B wa wb) (ha : ∀ i ∈ fa, i ≤ index) (hb : ∀ j ∈ fb, j ≤ index) :
    patched m wa wb fa fb (index + 8) = fill m (late wa) fa (index + 8) := by
  have hfillb : patched m wa wb fa fb (index + 8) = fill m wa fa (index + 8) := by
    cases fb with
    | none => rfl
    | some j =>
      have hle := hb j rfl
      have hshort := hp.short.2
      exact write_outside hp.b.inside (by omega)
  rw [hfillb]
  cases fa with
  | none => rfl
  | some i => exact (write_late (Nat.add_le_add_right (ha i rfl) 8)).symm

theorem next (h : Inv A B wa m index reads fa fb) (hp : Pair A B wa wb)
    (ha : Stands A m index ∧ Shown B fb index → fa = none) :
    Inv A B wa m (index + 1)
      (reads.drop 1 ++ [patched m wa wb (now (Stands A m index ∧ Shown B fb index) index fa)
        (now (Stands B m index) index fb) (index + 8)])
      (now (Stands A m index ∧ Shown B fb index) index fa)
      (now (Stands B m index) index fb) := by
  have hdrop : (reads.drop 1).length = 7 := by
    rw [List.length_drop, h.length]
  refine ⟨?_, ?_, ?_, ?_⟩
  · intro i hi
    rw [now] at hi
    split at hi
    · rename_i hit
      obtain rfl := Option.some.inj hi
      refine ⟨Nat.lt_succ_self _, hit.1, ?_⟩
      rw [now, if_neg (not_both hp hit.1)]
      exact hit.2
    · obtain ⟨hlt, hst, hshown⟩ := h.a i hi
      refine ⟨Nat.lt_succ_of_lt hlt, hst, fun j hj => ?_⟩
      rw [now] at hj
      split at hj
      · obtain rfl := Option.some.inj hj
        omega
      · exact hshown j hj
  · intro j hj
    rw [now] at hj
    split at hj
    · rename_i hit
      obtain rfl := Option.some.inj hj
      exact ⟨Nat.lt_succ_self _, hit⟩
    · obtain ⟨hlt, hst⟩ := h.b j hj
      exact ⟨Nat.lt_succ_of_lt hlt, hst⟩
  · rw [List.length_append, hdrop]
    rfl
  · intro k hk
    by_cases hlast : k < 7
    · have hget (v : Word) : (reads.drop 1 ++ [v]).getD k 0 = reads.getD (k + 1) 0 := by
        rw [List.getD_append _ _ _ _ (by omega), List.getD_eq_getElem?_getD, List.getElem?_drop,
          Nat.add_comm 1, ← List.getD_eq_getElem?_getD]
      have hplace : index + 1 + k = index + (k + 1) := by omega
      rw [hget, hplace, fill_now ha (by omega)]
      exact h.reads (k + 1) (by omega)
    · obtain rfl : k = 7 := by omega
      have hget (v : Word) : (reads.drop 1 ++ [v]).getD 7 0 = v := by
        rw [List.getD_append_right _ _ _ _ (by omega), hdrop]
        rfl
      rw [hget]
      exact patched_next hp (fun i hi => now_le (fun i hi => (h.a i hi).1) hi)
        fun j hj => now_le (fun j hj => (h.b j hj).1) hj

end Inv

variable {nameA nameB : String} {r : Bool}

def patches (nameA nameB : String) (A B : List (Entry 32)) (wa wb : List (Nat × Word))
    (fa fb : Option Nat) : List (Patch Bool) :=
  [oncePatch nameA A false wa (fun _ => true) fa.isSome,
    oncePatch nameB B false wb (fun _ => true) fb.isSome]

def reached (m : Image 32) (r : Bool) (wa wb : List (Nat × Word)) (fa fb : Option Nat) :
    State Bool where
  mem := patched m wa wb fa fb
  rest := fa.isSome || fb.isSome || r

theorem write_patched (hp : Pair A B wa wb) (hfb : ∀ j ∈ fb, j < index ∧ Stands B m j)
    (ha : Stands A m index) (hshown : Shown B fb index) :
    write (patched m wa wb none fb) index wa = patched m wa wb (some index) fb := by
  cases fb with
  | none => rfl
  | some j =>
    obtain ⟨hlt, hst⟩ := hfb j rfl
    have hplaces := places hp ha (hshown j rfl) hst
    refine write_comm fun q hq p hpw => ?_
    have hin := hp.b.inside q hq
    omega

theorem matchAll_pair {p q : Patch Bool} {s : State Bool} (hp : p.should_match = true)
    (hq : q.should_match = true) :
    matchAll reads index [p, q] s = (do
      let (p, s) ← pfMatch p reads index s
      let (q, s) ← pfMatch q reads index s
      return ([p, q], s)) := by
  rw [matchAll, if_pos hp]
  cases pfMatch p reads index s with
  | error e => rfl
  | ok r =>
    change (matchAll reads index [q] r.2 >>= _) = _
    rw [matchAll, if_pos hq]
    change _ = (pfMatch q reads index r.2 >>= _)
    cases pfMatch q reads index r.2 <;> rfl

theorem matchAll_next (h : Inv A B wa m index reads fa fb) (hp : Pair A B wa wb)
    (ha : Stands A m index ∧ Shown B fb index → fa = none) (hb : Stands B m index → fb = none) :
    matchAll reads index (patches nameA nameB A B wa wb fa fb) (reached m r wa wb fa fb) =
      .ok (patches nameA nameB A B wa wb
          (Inv.now (Stands A m index ∧ Shown B fb index) index fa)
          (Inv.now (Stands B m index) index fb),
        reached m r wa wb (Inv.now (Stands A m index ∧ Shown B fb index) index fa)
          (Inv.now (Stands B m index) index fb)) := by
  have hmA : maskmatchMatch32 A reads (fun k => (reached m r wa wb fa fb).mem (index + k)) = true ↔
      Stands A m index ∧ Shown B fb index := (match32_long hp.long).trans (h.matchA hp)
  rw [patches, matchAll_pair rfl rfl]
  by_cases hitA : Stands A m index ∧ Shown B fb index
  · have hnotB := Inv.not_both hp hitA.1
    have hwrite := write_patched hp h.b hitA.1 hitA.2
    rw [Inv.now, if_pos hitA, Inv.now, if_neg hnotB]
    rw [ha hitA] at hmA ⊢
    rw [Option.isSome_none, pfMatch_first (hmA.mpr hitA)]
    change (pfMatch (oncePatch nameB B false wb _ fb.isSome) reads index
      ⟨write (patched m wa wb none fb) index wa, true⟩ >>= _) = _
    rw [pfMatch_other (mt (h.matchB hp _).mp hnotB), hwrite]
    cases fb <;> rfl
  · rw [Inv.now, if_neg hitA, pfMatch_other (mt hmA.mp hitA)]
    change (pfMatch (oncePatch nameB B false wb _ fb.isSome) reads index
      (reached m r wa wb fa fb) >>= _) = _
    by_cases hitB : Stands B m index
    · rw [Inv.now, if_pos hitB]
      rw [hb hitB] at h ⊢
      rw [Option.isSome_none, pfMatch_first ((h.matchB hp _).mpr hitB)]
      cases fa <;> rfl
    · rw [Inv.now, if_neg hitB, pfMatch_other (mt (h.matchB hp _).mp hitB)]
      rfl

/-- A pattern that comes again stops the scan. -/
theorem matchAll_again (h : Inv A B wa m index reads fa fb) (hp : Pair A B wa wb)
    (hagain : (Stands A m index ∧ Shown B fb index) ∧ fa ≠ none ∨ Stands B m index ∧ fb ≠ none) :
    ∃ e, matchAll reads index (patches nameA nameB A B wa wb fa fb) (reached m r wa wb fa fb) =
      .error e := by
  have hmA : maskmatchMatch32 A reads (fun k => (reached m r wa wb fa fb).mem (index + k)) = true ↔
      Stands A m index ∧ Shown B fb index := (match32_long hp.long).trans (h.matchA hp)
  rw [patches, matchAll_pair rfl rfl]
  obtain ⟨hitA, hfa⟩ | ⟨hitB, hfb⟩ := hagain
  · have hsome : fa.isSome = true := Option.isSome_iff_ne_none.mpr hfa
    rw [hsome, pfMatch_twice (hmA.mpr hitA)]
    exact ⟨_, rfl⟩
  · have hsome : fb.isSome = true := Option.isSome_iff_ne_none.mpr hfb
    have hnotA : ¬ (Stands A m index ∧ Shown B fb index) := fun hA =>
      Inv.not_both hp hA.1 hitB
    rw [pfMatch_other (mt hmA.mp hnotA)]
    change ∃ e, (pfMatch (oncePatch nameB B false wb _ fb.isSome) reads index
      (reached m r wa wb fa fb) >>= _) = _
    rw [hsome, pfMatch_twice ((h.matchB hp _).mpr hitB)]
    exact ⟨_, rfl⟩

structure Ends (A B : List (Entry 32)) (m : Image 32) (index n : Nat) (fa fb fa' fb' : Option Nat) :
    Prop where
  a : fa.toList ++ (sitesFrom A m index n).filter (fun i => Shown B fb' i) = fa'.toList
  b : fb.toList ++ sitesFrom B m index n = fb'.toList

variable {n : Nat} {fa' fb' : Option Nat}

theorem toList_inj (h : fa.toList = fa'.toList) : fa = fa' := by
  cases fa <;> cases fa' <;> simp_all

theorem mem_sitesFrom (h : i ∈ sitesFrom P m index n) : index ≤ i :=
  (List.mem_range'_1.mp (List.mem_of_mem_filter h)).1

theorem shown_iff (hB : 2 ≤ B.length) (h : fb.toList ++ sitesFrom B m index n = fb'.toList) :
    Shown B fb' index ↔ Shown B fb index := by
  cases fb with
  | some j =>
    obtain rfl : fb' = some j := by
      cases fb' with
      | none => cases h
      | some k =>
        obtain ⟨rfl, -⟩ := List.cons.inj h
        rfl
    exact Iff.rfl
  | none =>
    constructor
    · intro _ j hj
      cases hj
    · intro _ j hj hidx
      rw [Option.toList_none, List.nil_append] at h
      have hmem : j ∈ sitesFrom B m index n := by
        rw [h]
        exact Option.mem_toList.mpr hj
      have hle := mem_sitesFrom hmem
      omega

theorem not_cons_toList (x y : Nat) (xs : List Nat) (o : Option Nat) : x :: y :: xs ≠ o.toList := by
  cases o <;> simp

/-- The ends from one place on are those from the next one, with what happens there. -/
theorem ends_succ (hB : 2 ≤ B.length) (ha : Stands A m index ∧ Shown B fb index → fa = none)
    (hb : Stands B m index → fb = none) :
    Ends A B m index (n + 1) fa fb fa' fb' ↔
      Ends A B m (index + 1) n (Inv.now (Stands A m index ∧ Shown B fb index) index fa)
        (Inv.now (Stands B m index) index fb) fa' fb' := by
  have hbs : fb.toList ++ sitesFrom B m index (n + 1) =
      (Inv.now (Stands B m index) index fb).toList ++ sitesFrom B m (index + 1) n := by
    by_cases hst : Stands B m index
    · rw [hb hst, Inv.now, if_pos hst, sitesFrom_stands hst]
      rfl
    · rw [Inv.now, if_neg hst, sitesFrom_other hst]
  have has (hend : fb.toList ++ sitesFrom B m index (n + 1) = fb'.toList) :
      fa.toList ++ (sitesFrom A m index (n + 1)).filter (fun i => Shown B fb' i) =
        (Inv.now (Stands A m index ∧ Shown B fb index) index fa).toList ++
          (sitesFrom A m (index + 1) n).filter fun i => Shown B fb' i := by
    have hshown := shown_iff hB hend
    by_cases hst : Stands A m index
    · rw [sitesFrom_stands hst, List.filter_cons]
      by_cases hsh : Shown B fb index
      · rw [ha ⟨hst, hsh⟩, if_pos (decide_eq_true (hshown.mpr hsh)), Inv.now, if_pos ⟨hst, hsh⟩]
        rfl
      · have hdec : ¬ decide (Shown B fb' index) = true := fun h =>
          hsh (hshown.mp (of_decide_eq_true h))
        rw [if_neg hdec, Inv.now, if_neg (fun h => hsh h.2)]
    · rw [Inv.now, if_neg (fun h => hst h.1), sitesFrom_other hst]
  constructor
  · intro h
    exact ⟨(has h.b).symm.trans h.a, hbs.symm.trans h.b⟩
  · intro h
    exact ⟨(has (hbs.trans h.b)).trans h.a, hbs.trans h.b⟩

theorem not_ends (hB : 2 ≤ B.length)
    (hagain : (Stands A m index ∧ Shown B fb index) ∧ fa ≠ none ∨ Stands B m index ∧ fb ≠ none) :
    ¬ Ends A B m index (n + 1) fa fb fa' fb' := by
  intro h
  obtain ⟨⟨hst, hsh⟩, hfa⟩ | ⟨hst, hfb⟩ := hagain
  · obtain ⟨i, rfl⟩ := Option.ne_none_iff_exists'.mp hfa
    have hlist := h.a
    rw [sitesFrom_stands hst, List.filter_cons,
      if_pos (decide_eq_true ((shown_iff hB h.b).mpr hsh))] at hlist
    exact not_cons_toList _ _ _ _ hlist
  · obtain ⟨i, rfl⟩ := Option.ne_none_iff_exists'.mp hfb
    have hlist := h.b
    rw [sitesFrom_stands hst] at hlist
    exact not_cons_toList _ _ _ _ hlist

/-- The scan over an image that it changes and the words that it reads ahead, by the places where
the patterns stand in the image as it was. -/
theorem scan_pair (hp : Pair A B wa wb) (h : Inv A B wa m index reads fa fb)
    {res : List (Patch Bool) × State Bool} :
    scan n index reads (patches nameA nameB A B wa wb fa fb) (reached m r wa wb fa fb) = .ok res ↔
      ∃ fa' fb', Ends A B m index n fa fb fa' fb' ∧
        res = (patches nameA nameB A B wa wb fa' fb', reached m r wa wb fa' fb') := by
  induction n generalizing index reads fa fb with
  | zero =>
    constructor
    · intro hrun
      cases hrun
      exact ⟨fa, fb, ⟨List.append_nil _, List.append_nil _⟩, rfl⟩
    · intro hend
      obtain ⟨fa', fb', hends, rfl⟩ := hend
      have ha := hends.a
      have hb := hends.b
      obtain rfl := toList_inj ((List.append_nil _).symm.trans ha)
      obtain rfl := toList_inj ((List.append_nil _).symm.trans hb)
      rfl
  | succ n ih =>
    by_cases hagain : (Stands A m index ∧ Shown B fb index) ∧ fa ≠ none ∨
        Stands B m index ∧ fb ≠ none
    · have hstop : ∃ e, matchAll reads index (patches nameA nameB A B wa wb fa fb)
          (reached m r wa wb fa fb) = .error e := matchAll_again h hp hagain
      obtain ⟨e, he⟩ := hstop
      rw [scan, he]
      constructor
      · intro hrun
        cases hrun
      · intro hend
        obtain ⟨fa', fb', hends, -⟩ := hend
        exact absurd hends (not_ends hp.short.1 hagain)
    · have ha : Stands A m index ∧ Shown B fb index → fa = none := fun hA =>
        not_not.mp fun hne => hagain (Or.inl ⟨hA, hne⟩)
      have hb : Stands B m index → fb = none := fun hB =>
        not_not.mp fun hne => hagain (Or.inr ⟨hB, hne⟩)
      rw [scan, matchAll_next h hp ha hb]
      simp only [ends_succ hp.short.1 ha hb]
      exact ih (h.next hp ha)

theorem inv_start (m : Image 32) : Inv A B wa m 0 ((List.range 8).map m) none none := by
  refine ⟨?_, ?_, rfl, ?_⟩
  · intro i hi
    cases hi
  · intro i hi
    cases hi
  intro k hk
  rw [List.getD_eq_getElem _ _ (by rwa [List.length_map, List.length_range]), List.getElem_map,
    List.getElem_range, Nat.zero_add]
  rfl

end AipcOs.PatchPair
