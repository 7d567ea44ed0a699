import AipcOs.RspTransfer
import AipcOs.WordPatch

/-! The breakpoint table against the memory that would be there without any breakpoint. -/
namespace AipcOs.Rsp
open ByteMemory WordPatch WordBits

def activeSet (t : BpTable) : Set Word := { a | ∃ i, (t i).active = true ∧ (t i).addr = a }

/-- Table and memory fit the memory `orig`; `extra` are further addresses with a planted word. -/
structure Tracks (orig : Mem) (extra : Set Word) (t : BpTable) (m : Mem) : Prop where
  aligned : ∀ i, (t i).active = true → Aligned (t i).addr
  distinct : ∀ i j, (t i).active = true → (t j).active = true → (t i).addr = (t j).addr → i = j
  saved : ∀ i, (t i).active = true → (t i).saved = wordAt orig (t i).addr
  mem : m = patch (activeSet t ∪ extra) BP_INSN orig

theorem activeSet_remove {t : BpTable} {i : Fin BP_MAX} (hi : (t i).active = true)
    (hd : ∀ j, (t j).active = true → (t j).addr = (t i).addr → j = i) :
    activeSet (Function.update t i { t i with active := false }) = activeSet t \ {(t i).addr} := by
  ext a
  simp only [activeSet, Set.mem_ofPred_eq, Set.mem_sdiff, Set.mem_singleton_iff]
  constructor
  · intro hex
    obtain ⟨j, hj, rfl⟩ := hex
    have hji : j ≠ i := by
      intro heq
      obtain rfl := heq
      simp at hj
    rw [Function.update_of_ne hji] at hj ⊢
    exact ⟨⟨j, hj, rfl⟩, fun heq => hji (hd j hj heq)⟩
  · intro hboth
    obtain ⟨⟨j, hj, rfl⟩, hne⟩ := hboth
    have hji : j ≠ i := by
      intro heq
      obtain rfl := heq
      exact hne rfl
    exact ⟨j, by rwa [Function.update_of_ne hji], by rw [Function.update_of_ne hji]⟩

section table
variable {orig : Mem} {t : BpTable} {m : Mem}

/-- The slot is freed and its word goes back. -/
theorem Tracks.lift (h : Tracks orig ∅ t m) {i : Fin BP_MAX} (hi : (t i).active = true) :
    Tracks orig ∅ (Function.update t i { t i with active := false })
      (store32 m (t i).addr (t i).saved) := by
  have hold : ∀ j, (Function.update t i { t i with active := false } j).active = true → j ≠ i := by
    intro j hj heq
    obtain rfl := heq
    simp at hj
  refine ⟨?_, ?_, ?_, ?_⟩
  · intro j hj
    have hji := hold j hj
    rw [Function.update_of_ne hji] at hj ⊢
    exact h.aligned j hj
  · intro j k hj hk heq
    have hji := hold j hj
    have hki := hold k hk
    rw [Function.update_of_ne hji] at hj heq
    rw [Function.update_of_ne hki] at hk heq
    exact h.distinct j k hj hk heq
  · intro j hj
    have hji := hold j hj
    rw [Function.update_of_ne hji] at hj ⊢
    exact h.saved j hj
  · have ha := h.aligned i hi
    rw [activeSet_remove hi fun j hj heq => h.distinct j i hj hi heq, store32_aligned _ _ _ ha, h.mem,
      h.saved i hi, patch_remove ha, Set.union_empty, Set.union_empty]

/-- Stores that stay clear of every planted word. -/
theorem Tracks.store {extra : Set Word} (h : Tracks orig extra t m) (a : Word) (bs : List Byte)
    (hclear : ∀ i < bs.length, wordOf (a + BitVec.ofNat 32 i) ∉ activeSet t ∪ extra) :
    Tracks (storeBytes orig a bs) extra t (storeBytes m a bs) := by
  refine ⟨h.aligned, h.distinct, ?_, ?_⟩
  · intro i hi
    rw [h.saved i hi, wordAt_storeBytes bs (h.aligned i hi)]
    intro j hj heq
    exact hclear j hj (.inl ⟨i, hi, heq.symm⟩)
  · rw [h.mem, patch_storeBytes bs hclear]

end table

end AipcOs.Rsp
