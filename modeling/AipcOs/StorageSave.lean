import AipcOs.HexText

/-! aipc-boot/storage.c: storage_load and storage_save over the files of the card. Every FatFs step
of a save may fail or be cut off by a power loss; what a step that does not return FR_OK leaves on
the card is part of the fault. -/
namespace AipcOs.Storage
open ByteMemory HexText

abbrev Name := List Byte

abbrev Card := Name → Option (List Byte)

def FF_MAX_LFN : Nat := 255
def STORAGE_ENOTFOUND : Int := -30
def STORAGE_ESIZE : Int := -31
def STORAGE_EIO : Int := -32

def newName (path : Name) : Option Name :=
  if FF_MAX_LFN + 1 < path.length + 5 then none else some (path ++ ascii ".new")

def loadOne (path : Name) (max : Nat) (d : Card) : Except Int (List Byte) :=
  match d path with
  | none => .error STORAGE_ENOTFOUND
  | some c => if c.length = 0 ∨ max < c.length then .error STORAGE_ESIZE else .ok c

def storageLoad (path : Name) (max : Nat) (d : Card) : Except Int (List Byte) :=
  match loadOne path max d with
  | .ok c => .ok c
  | .error rc =>
    if rc ≠ STORAGE_ENOTFOUND then .error rc
    else
      match newName path with
      | none => .error rc
      | some tmp => loadOne tmp max d

/-- f_open with FA_CREATE_ALWAYS, f_unlink and f_rename: the step is done, or returns an error or
is cut off with its effect on the card or without. -/
inductive Outcome where
  | ok
  | error (took : Bool)
  | cut (took : Bool)
  deriving DecidableEq

/-- f_write returns FR_OK or not and a count, or is cut off after `kept` bytes. -/
inductive WriteOutcome where
  | returned (ok : Bool) (put : Nat)
  | cut (kept : Nat)
  deriving DecidableEq

/-- f_close writes the size back. Without it any part of the data may be lost. -/
inductive CloseOutcome where
  | ok
  | error (kept : Nat)
  | cut (kept : Nat)
  deriving DecidableEq

structure Faults where
  openNew : Outcome
  write : WriteOutcome
  close : CloseOutcome
  cleanup : Outcome
  unlink : Outcome
  rename : Outcome

inductive Progress where
  | ok (d : Card)
  | error (d : Card)
  | cut (d : Card)

def Progress.card : Progress → Card
  | .ok d | .error d | .cut d => d

def atomic (o : Outcome) (effect : Card → Card) (d : Card) : Progress :=
  match o with
  | .ok => .ok (effect d)
  | .error took => .error (if took then effect d else d)
  | .cut took => .cut (if took then effect d else d)

def setFile (name : Name) (c : Option (List Byte)) (d : Card) : Card := Function.update d name c

def cleanupNew (tmp : Name) (o : Outcome) (d : Card) : Progress :=
  match atomic o (setFile tmp none) d with
  | .ok d | .error d => .error d
  | .cut d => .cut d

def writeNew (tmp : Name) (c : List Byte) (F : Faults) (d : Card) : Progress :=
  match atomic F.openNew (setFile tmp (some [])) d with
  | .cut d => .cut d
  | .error d => .error d
  | .ok d =>
    match F.write, F.close with
    | .cut kept, _ => .cut (setFile tmp (some (c.take kept)) d)
    | .returned _ _, .cut kept => .cut (setFile tmp (some (c.take kept)) d)
    | .returned _ _, .error kept => cleanupNew tmp F.cleanup (setFile tmp (some (c.take kept)) d)
    | .returned fr put, .ok =>
      let d := setFile tmp (some (c.take put)) d
      if fr ∧ put = c.length then .ok d else cleanupNew tmp F.cleanup d

inductive Exit where
  | returned (rc : Int)
  | cut
  deriving DecidableEq

/-- The rest of storage_save. f_unlink of a missing file gives FR_NO_FILE, which counts as done;
f_rename onto an existing one fails. -/
def commit (path tmp : Name) (F : Faults) (d : Card) : Exit × Card :=
  match atomic F.unlink (setFile path none) d with
  | .cut d => (.cut, d)
  | .error d => (.returned STORAGE_EIO, d)
  | .ok d =>
    if (d path).isSome then (.returned STORAGE_EIO, d)
    else
      match atomic F.rename (fun d => setFile path (d tmp) (setFile tmp none d)) d with
      | .cut d => (.cut, d)
      | .error d => (.returned STORAGE_EIO, d)
      | .ok d => (.returned 0, d)

def storageSave (path : Name) (c : List Byte) (F : Faults) (d : Card) : Exit × Card :=
  match newName path with
  | none => (.returned STORAGE_EIO, d)
  | some tmp =>
    match writeNew tmp c F d with
    | .cut d => (.cut, d)
    | .error d => (.returned STORAGE_EIO, d)
    | .ok d => commit path tmp F d

structure Call where
  content : List Byte
  faults : Faults

def Call.run (path : Name) (call : Call) (d : Card) : Exit × Card :=
  storageSave path call.content call.faults d

def saveRun (path : Name) : List Call → Card → Card
  | [], d => d
  | call :: calls, d => saveRun path calls (call.run path d).2

/-- The contents that may be found after the calls: what the last call with return value 0 saved,
or what a later one tried to. -/
def candidates (path : Name) : List Call → Card → List (List Byte) → List (List Byte)
  | [], _, cs => cs
  | call :: calls, d, cs =>
    candidates path calls (call.run path d).2
      (if (call.run path d).1 = .returned 0 then [call.content] else call.content :: cs)

theorem newName_ne {path tmp : Name} (h : newName path = some tmp) : path ≠ tmp := by
  unfold newName at h
  split at h
  · cases h
  · cases h
    intro heq
    have hlen := congrArg List.length heq
    have hnew : (ascii ".new").length = 4 := ascii_length ".new"
    rw [List.length_append] at hlen
    omega

theorem setFile_other {name x : Name} (c : Option (List Byte)) (d : Card) (h : x ≠ name) :
    setFile name c d x = d x := by
  rw [setFile, Function.update_of_ne h]

theorem setFile_self (name : Name) (c : Option (List Byte)) (d : Card) :
    setFile name c d name = c := by
  rw [setFile, Function.update_self]

/-- An atomic step has its effect or none, and has it when it returns. -/
theorem atomic_cases (o : Outcome) (effect : Card → Card) (d : Card) :
    (atomic o effect d).card = effect d ∨
      ((atomic o effect d).card = d ∧ ∀ d', atomic o effect d ≠ .ok d') := by
  cases o with
  | ok => exact .inl rfl
  | error took =>
    cases took with
    | true => exact .inl rfl
    | false => exact .inr ⟨rfl, fun _ h => by cases h⟩
  | cut took =>
    cases took with
    | true => exact .inl rfl
    | false => exact .inr ⟨rfl, fun _ h => by cases h⟩

theorem cleanupNew_other {tmp x : Name} (o : Outcome) (d : Card) (h : x ≠ tmp) :
    (cleanupNew tmp o d).card x = d x := by
  have hcard : (cleanupNew tmp o d).card = (atomic o (setFile tmp none) d).card := by
    unfold cleanupNew
    cases atomic o (setFile tmp none) d <;> rfl
  rw [hcard]
  obtain hd | ⟨hd, -⟩ := atomic_cases o (setFile tmp none) d
  · rw [hd, setFile_other _ _ h]
  · rw [hd]

/-- Until `tmp` is complete nothing else changes. -/
theorem writeNew_other {tmp x : Name} (c : List Byte) (F : Faults) (d : Card) (h : x ≠ tmp) :
    (writeNew tmp c F d).card x = d x := by
  have hopen : (atomic F.openNew (setFile tmp (some [])) d).card x = d x := by
    obtain hd | ⟨hd, -⟩ := atomic_cases F.openNew (setFile tmp (some [])) d
    · rw [hd, setFile_other _ _ h]
    · rw [hd]
  unfold writeNew
  cases ho : atomic F.openNew (setFile tmp (some [])) d with
  | cut d1 =>
    rw [ho] at hopen
    exact hopen
  | error d1 =>
    rw [ho] at hopen
    exact hopen
  | ok d1 =>
    rw [ho] at hopen
    have hset : ∀ e, setFile tmp e d1 x = d x := fun e => (setFile_other e d1 h).trans hopen
    simp only
    split
    · exact hset _
    · exact hset _
    · rw [cleanupNew_other _ _ h]
      exact hset _
    · split
      · exact hset _
      · rw [cleanupNew_other _ _ h]
        exact hset _

theorem cleanupNew_ne_ok (tmp : Name) (o : Outcome) (d d' : Card) : cleanupNew tmp o d ≠ .ok d' := by
  unfold cleanupNew
  cases atomic o (setFile tmp none) d <;> exact fun h => by cases h

theorem writeNew_complete {tmp : Name} {c : List Byte} {F : Faults} {d d' : Card}
    (h : writeNew tmp c F d = .ok d') : d' tmp = some c := by
  unfold writeNew at h
  split at h
  · cases h
  · cases h
  · split at h
    · cases h
    · cases h
    · exact absurd h (cleanupNew_ne_ok _ _ _ _)
    · simp only at h
      split at h
      · rename_i hput
        cases h
        rw [setFile_self, hput.2, List.take_length]
      · exact absurd h (cleanupNew_ne_ok _ _ _ _)

/-- From a complete `tmp` on, one of the two files is always there. -/
theorem commit_cases {path tmp : Name} (c : List Byte) (F : Faults) (d : Card) (hne : path ≠ tmp)
    (ht : d tmp = some c) :
    (commit path tmp F d).2 path = some c ∨
    ((commit path tmp F d).1 ≠ .returned 0 ∧ (commit path tmp F d).2 tmp = some c ∧
      ((commit path tmp F d).2 path = d path ∨ (commit path tmp F d).2 path = none)) := by
  have hbad : Exit.returned STORAGE_EIO ≠ .returned 0 := by decide
  have htmp : setFile path none d tmp = some c := by rw [setFile_other _ _ hne.symm, ht]
  have hgone : setFile path none d path = none := setFile_self path none d
  unfold commit
  obtain hu | ⟨hu, hok⟩ := atomic_cases F.unlink (setFile path none) d
  · cases ho : atomic F.unlink (setFile path none) d with
    | cut d1 =>
      rw [ho] at hu
      obtain rfl : d1 = setFile path none d := hu
      exact .inr ⟨fun h => (by cases h), htmp, .inr hgone⟩
    | error d1 =>
      rw [ho] at hu
      obtain rfl : d1 = setFile path none d := hu
      exact .inr ⟨hbad, htmp, .inr hgone⟩
    | ok d1 =>
      rw [ho] at hu
      obtain rfl : d1 = setFile path none d := hu
      simp only [hgone, Option.isSome_none, Bool.false_eq_true, if_false]
      have hdone : setFile path (setFile path none d tmp)
          (setFile tmp none (setFile path none d)) path = some c := by rw [setFile_self, htmp]
      obtain hr | ⟨hr, hnot⟩ := atomic_cases F.rename
        (fun d => setFile path (d tmp) (setFile tmp none d)) (setFile path none d)
      · left
        cases hs : atomic F.rename (fun d => setFile path (d tmp) (setFile tmp none d))
            (setFile path none d) <;> rw [hs] at hr <;> cases hr <;> exact hdone
      · right
        cases hs : atomic F.rename (fun d => setFile path (d tmp) (setFile tmp none d))
            (setFile path none d) with
        | ok d2 => exact absurd hs (hnot d2)
        | error d2 =>
          rw [hs] at hr
          obtain rfl : d2 = setFile path none d := hr
          exact ⟨hbad, htmp, .inr hgone⟩
        | cut d2 =>
          rw [hs] at hr
          obtain rfl : d2 = setFile path none d := hr
          exact ⟨fun h => (by cases h), htmp, .inr hgone⟩
  · right
    cases ho : atomic F.unlink (setFile path none) d with
    | cut d1 =>
      rw [ho] at hu
      obtain rfl : d1 = d := hu
      exact ⟨fun h => (by cases h), ht, .inl rfl⟩
    | error d1 =>
      rw [ho] at hu
      obtain rfl : d1 = d := hu
      exact ⟨hbad, ht, .inl rfl⟩
    | ok d1 => exact absurd ho (hok d1)

/-- A save that returns 0 leaves its content at `path`. -/
theorem storageSave_returned {path : Name} {c : List Byte} {F : Faults} {d : Card}
    (h : (storageSave path c F d).1 = .returned 0) : (storageSave path c F d).2 path = some c := by
  have hbad : Exit.returned STORAGE_EIO ≠ .returned 0 := by decide
  unfold storageSave at h ⊢
  cases htmp : newName path with
  | none =>
    rw [htmp] at h
    exact absurd h hbad
  | some tmp =>
    simp only [htmp] at h ⊢
    cases hw : writeNew tmp c F d with
    | cut d1 =>
      rw [hw] at h
      cases h
    | error d1 =>
      rw [hw] at h
      exact absurd h hbad
    | ok d1 =>
      rw [hw] at h
      obtain hdone | ⟨hrc, -⟩ := commit_cases c F d1 (newName_ne htmp) (writeNew_complete hw)
      · exact hdone
      · exact absurd h hrc

def Loadable (max : Nat) (c : List Byte) : Prop := c.length ≠ 0 ∧ c.length ≤ max

def Holds (path : Name) (cs : List (List Byte)) (d : Card) : Prop :=
  (∃ c ∈ cs, d path = some c) ∨
    (d path = none ∧ ∃ tmp, newName path = some tmp ∧ ∃ c ∈ cs, d tmp = some c)

theorem loadOne_some {path : Name} {max : Nat} {d : Card} {c : List Byte} (h : d path = some c)
    (hc : Loadable max c) : loadOne path max d = .ok c := by
  have hno : ¬ (c.length = 0 ∨ max < c.length) := by
    intro hor
    obtain h0 | hm := hor
    · exact hc.1 h0
    · exact absurd hc.2 (not_le.mpr hm)
  rw [loadOne, h]
  simp only [if_neg hno]

theorem loadOne_ok {path : Name} {max : Nat} {d : Card} {c : List Byte}
    (h : loadOne path max d = .ok c) : d path = some c ∧ Loadable max c := by
  unfold loadOne at h
  split at h
  · cases h
  · rename_i c' hd
    split at h
    · cases h
    · rename_i hno
      cases h
      push Not at hno
      exact ⟨hd, hno⟩

theorem loadOne_missing {path : Name} {max : Nat} {d : Card} (h : d path = none) :
    loadOne path max d = .error STORAGE_ENOTFOUND := by
  rw [loadOne, h]

theorem Holds.load {path : Name} {max : Nat} {cs : List (List Byte)} {d : Card}
    (h : Holds path cs d) (hcs : ∀ c ∈ cs, Loadable max c) :
    ∃ c ∈ cs, storageLoad path max d = .ok c := by
  obtain ⟨c, hc, hd⟩ | ⟨hnone, tmp, htmp, c, hc, hd⟩ := h
  · refine ⟨c, hc, ?_⟩
    rw [storageLoad, loadOne_some hd (hcs c hc)]
  · refine ⟨c, hc, ?_⟩
    rw [storageLoad, loadOne_missing hnone]
    simp only [ne_eq, not_true_eq_false, if_false, htmp]
    exact loadOne_some hd (hcs c hc)

theorem holds_of_load {path : Name} {max : Nat} {d : Card} {c : List Byte}
    (h : storageLoad path max d = .ok c) : Holds path [c] d ∧ Loadable max c := by
  unfold storageLoad at h
  split at h
  · rename_i c' hone
    cases h
    obtain ⟨hd, hc⟩ := loadOne_ok hone
    exact ⟨.inl ⟨c, List.mem_singleton_self c, hd⟩, hc⟩
  · rename_i rc hone
    have hnone : d path = none ∨ rc ≠ STORAGE_ENOTFOUND := by
      unfold loadOne at hone
      split at hone
      · rename_i hd
        exact .inl hd
      · split at hone
        · cases hone
          exact .inr (by decide)
        · cases hone
    split at h
    · cases h
    · rename_i heq
      have hnone := hnone.resolve_right heq
      split at h
      · cases h
      · rename_i tmp htmp
        obtain ⟨hd, hc⟩ := loadOne_ok h
        exact ⟨.inr ⟨hnone, tmp, htmp, c, List.mem_singleton_self c, hd⟩, hc⟩

def Outcome.Untaken (o : Outcome) : Prop := o = .error false ∨ o = .cut false

/-- The calls for which the .new file is not at risk: `path` is there, or f_open does not get to
the truncation, or the new file is written and closed without a fault. -/
def Call.Guarded (path : Name) (call : Call) (d : Card) : Prop :=
  (d path).isSome ∨ call.faults.openNew.Untaken ∨
    (call.faults.openNew = .ok ∧ call.faults.write = .returned true call.content.length ∧
      call.faults.close = .ok)

def RunGuarded (path : Name) : List Call → Card → Prop
  | [], _ => True
  | call :: calls, d => call.Guarded path d ∧ RunGuarded path calls (call.run path d).2

theorem Holds.mono {path : Name} {cs es : List (List Byte)} {d : Card} (h : Holds path cs d)
    (hsub : cs ⊆ es) : Holds path es d := by
  obtain ⟨c, hc, hd⟩ | ⟨hnone, tmp, htmp, c, hc, hd⟩ := h
  · exact .inl ⟨c, hsub hc, hd⟩
  · exact .inr ⟨hnone, tmp, htmp, c, hsub hc, hd⟩

/-- A writing phase that ends early leaves what storage_load finds. -/
theorem writeNew_early {path tmp : Name} {call : Call} {cs : List (List Byte)} {d : Card}
    (h : Holds path cs d) (hg : call.Guarded path d) (htmp : newName path = some tmp)
    (hearly : ∀ d', writeNew tmp call.content call.faults d ≠ .ok d') :
    Holds path cs (writeNew tmp call.content call.faults d).card := by
  have hne := newName_ne htmp
  have hpath := writeNew_other call.content call.faults d hne
  obtain hsome | hun | ⟨h1, h2, h3⟩ := hg
  · obtain ⟨c, hc, hd⟩ | ⟨hnone, -⟩ := h
    · exact .inl ⟨c, hc, hpath.trans hd⟩
    · rw [hnone] at hsome
      cases hsome
  · have hsame : (writeNew tmp call.content call.faults d).card = d := by
      obtain ho | ho := hun
      · rw [writeNew, ho]
        rfl
      · rw [writeNew, ho]
        rfl
    rw [hsame]
    exact h
  · have hok : writeNew tmp call.content call.faults d =
        .ok (setFile tmp (some (call.content.take call.content.length))
          (setFile tmp (some []) d)) := by
      rw [writeNew, h1, h2, h3]
      simp [atomic]
    exact absurd hok (hearly _)

/-- One call. -/
theorem run_holds {path : Name} {call : Call} {cs : List (List Byte)} {d : Card}
    (h : Holds path cs d) (hg : call.Guarded path d) :
    Holds path (if (call.run path d).1 = .returned 0 then [call.content] else call.content :: cs)
      (call.run path d).2 := by
  have hbad : Exit.returned STORAGE_EIO ≠ .returned 0 := by decide
  have hsub : cs ⊆ call.content :: cs := List.subset_cons_self _ _
  cases htmp : newName path with
  | none =>
    have hrun : call.run path d = (.returned STORAGE_EIO, d) := by
      rw [Call.run, storageSave, htmp]
    rw [hrun, if_neg hbad]
    exact h.mono hsub
  | some tmp =>
    have hne := newName_ne htmp
    have hearly := writeNew_early h hg htmp
    have hother := writeNew_other call.content call.faults d hne
    cases hw : writeNew tmp call.content call.faults d with
    | cut d1 =>
      have hrun : call.run path d = (.cut, d1) := by
        rw [Call.run, storageSave, htmp]
        simp only [hw]
      have hexit : Exit.cut ≠ .returned 0 := by decide
      rw [hw] at hearly
      rw [hrun, if_neg hexit]
      exact (hearly fun _ h => by cases h).mono hsub
    | error d1 =>
      have hrun : call.run path d = (.returned STORAGE_EIO, d1) := by
        rw [Call.run, storageSave, htmp]
        simp only [hw]
      rw [hw] at hearly
      rw [hrun, if_neg hbad]
      exact (hearly fun _ h => by cases h).mono hsub
    | ok d1 =>
      have hrun : call.run path d = commit path tmp call.faults d1 := by
        rw [Call.run, storageSave, htmp]
        simp only [hw]
      have hcomplete := writeNew_complete hw
      rw [hw] at hother
      have hother : d1 path = d path := hother
      rw [hrun]
      obtain hdone | ⟨hrc, hnew, hpath⟩ := commit_cases call.content call.faults d1 hne hcomplete
      · refine .inl ⟨call.content, ?_, hdone⟩
        split <;> exact List.mem_cons_self
      · rw [if_neg hrc]
        have hmem : call.content ∈ call.content :: cs := List.mem_cons_self
        obtain hsame | hgone := hpath
        · cases hd : d path with
          | none => exact .inr ⟨by rw [hsame, hother, hd], tmp, htmp, call.content, hmem, hnew⟩
          | some p =>
            obtain ⟨c, hc, hp⟩ | ⟨hnone, -⟩ := h
            · exact .inl ⟨c, hsub hc, by rw [hsame, hother, hp]⟩
            · rw [hnone] at hd
              cases hd
        · exact .inr ⟨hgone, tmp, htmp, call.content, hmem, hnew⟩

theorem saveRun_holds {path : Name} (calls : List Call) {cs : List (List Byte)} {d : Card}
    (h : Holds path cs d) (hg : RunGuarded path calls d) :
    Holds path (candidates path calls d cs) (saveRun path calls d) := by
  induction calls generalizing cs d with
  | nil => exact h
  | cons call calls ih => exact ih (run_holds h hg.1) hg.2

theorem candidates_subset (path : Name) (calls : List Call) (d : Card) (cs : List (List Byte)) :
    candidates path calls d cs ⊆ calls.map Call.content ++ cs := by
  induction calls generalizing d cs with
  | nil => exact fun _ h => h
  | cons call calls ih =>
    intro c hc
    have hmem := ih _ _ hc
    rw [List.mem_append] at hmem
    rw [List.map_cons, List.cons_append, List.mem_cons, List.mem_append]
    obtain hmem | hmem := hmem
    · exact .inr (.inl hmem)
    · split at hmem
      · exact .inl (List.mem_singleton.mp hmem)
      · obtain rfl | hmem := List.mem_cons.mp hmem
        · exact .inl rfl
        · exact .inr (.inr hmem)

/-- storage_load after the calls gives a complete content: that of the last call that returned 0 or
of a later one, or the first content when there is none. -/
def Survives (path : Name) (max : Nat) (d : Card) (c₀ : List Byte) (calls : List Call) : Prop :=
  ∃ c ∈ candidates path calls d [c₀],
    c ∈ c₀ :: calls.map Call.content ∧ storageLoad path max (saveRun path calls d) = .ok c

/-- Runs in which no call that finds `path` missing is cut off or fails between the truncation of
the .new file and its f_close. -/
theorem save_survives (path : Name) (max : Nat) (d : Card) (c₀ : List Byte) (calls : List Call)
    (h₀ : storageLoad path max d = .ok c₀) (hcalls : ∀ call ∈ calls, Loadable max call.content)
    (hg : RunGuarded path calls d) : Survives path max d c₀ calls := by
  obtain ⟨hholds, hc₀⟩ := holds_of_load h₀
  have hsub : candidates path calls d [c₀] ⊆ c₀ :: calls.map Call.content := by
    intro c hc
    have hmem := candidates_subset path calls d [c₀] hc
    rw [List.mem_append, List.mem_singleton] at hmem
    rw [List.mem_cons]
    exact hmem.symm
  have hall : ∀ c ∈ candidates path calls d [c₀], Loadable max c := by
    intro c hc
    obtain rfl | hmem := List.mem_cons.mp (hsub hc)
    · exact hc₀
    · obtain ⟨call, hcall, rfl⟩ := List.mem_map.mp hmem
      exact hcalls call hcall
  obtain ⟨c, hc, hload⟩ := (saveRun_holds calls hholds hg).load hall
  exact ⟨c, hc, hsub hc, hload⟩

def noFaults (len : Nat) : Faults :=
  ⟨.ok, .returned true len, .ok, .ok, .ok, .ok⟩

def recovered : Card := setFile (ascii "a.new") (some [1]) fun _ => none

def cutTwice : List Call :=
  [⟨[2], { noFaults 1 with rename := .cut false }⟩, ⟨[3], { noFaults 1 with openNew := .cut false }⟩]

theorem save_survives_cuts : Survives (ascii "a") 4096 recovered [1] cutTwice := by
  refine save_survives (ascii "a") 4096 recovered [1] cutTwice rfl ?_ ?_
  · intro call hcall
    simp only [cutTwice, List.mem_cons, List.not_mem_nil, or_false] at hcall
    obtain rfl | rfl := hcall
    · exact ⟨by decide, by decide⟩
    · exact ⟨by decide, by decide⟩
  · exact ⟨.inr (.inr ⟨rfl, rfl, rfl⟩), .inr (.inl (.inr rfl)), trivial⟩

/-- A power loss right after f_open has truncated the only copy. -/
theorem save_loses_new : ¬ ∀ (path : Name) (max : Nat) (d : Card) (c₀ : List Byte) (calls : List Call),
    storageLoad path max d = .ok c₀ → (∀ call ∈ calls, Loadable max call.content) →
      Survives path max d c₀ calls := by
  intro h
  have hcall : ∀ call ∈ [(⟨[2], { noFaults 1 with openNew := .cut true }⟩ : Call)],
      Loadable 4096 call.content := by
    intro call hcall
    rw [List.mem_singleton.mp hcall]
    exact ⟨by decide, by decide⟩
  obtain ⟨c, -, -, hload⟩ := h (ascii "a") 4096 recovered [1]
    [⟨[2], { noFaults 1 with openNew := .cut true }⟩] rfl hcall
  have herr : storageLoad (ascii "a") 4096 (saveRun (ascii "a")
      [⟨[2], { noFaults 1 with openNew := .cut true }⟩] recovered) = .error STORAGE_ESIZE := rfl
  rw [herr] at hload
  cases hload

end AipcOs.Storage
