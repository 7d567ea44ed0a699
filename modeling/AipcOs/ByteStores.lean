import AipcOs.StructBytes

/-! Writes of fields and bytes into a buffer: a list of writes that overlap nowhere leaves every
one of them in the buffer, and all other bytes as they were. -/
namespace AipcOs.ByteStores
open ByteMemory StructBytes

def packAll (fs : List (Nat × Nat)) : List Byte := fs.flatMap fun f => pack f.1 f.2

def width (fs : List (Nat × Nat)) : Nat := (fs.map Prod.fst).sum

/-- A write at an offset: fields that must fit their widths, or bytes as they are. -/
inductive Store where
  | fields (off : Nat) (fs : List (Nat × Nat))
  | bytes (off : Nat) (bs : List Byte)

namespace Store

def off : Store → Nat
  | fields o _ => o
  | bytes o _ => o

def content : Store → List Byte
  | fields _ fs => packAll fs
  | bytes _ bs => bs

def Fits : Store → Prop
  | fields _ fs => ∀ f ∈ fs, f.2 < 256 ^ f.1
  | bytes _ _ => True

instance : DecidablePred Fits
  | fields _ fs => inferInstanceAs (Decidable (∀ f ∈ fs, f.2 < 256 ^ f.1))
  | bytes _ _ => .isTrue trivial

def span (s : Store) : Nat × Nat := (s.off, s.content.length)

end Store

def store (b : List Byte) (s : Store) : Except String (List Byte) :=
  if ¬ s.Fits then .error "argument out of range"
  else if b.length < s.off + s.content.length then .error "buffer too small"
  else .ok (patch b s.off s.content)

theorem packAll_cons (f : Nat × Nat) (fs : List (Nat × Nat)) :
    packAll (f :: fs) = pack f.1 f.2 ++ packAll fs := List.flatMap_cons

theorem packAll_length (fs : List (Nat × Nat)) : (packAll fs).length = width fs := by
  induction fs with
  | nil => rfl
  | cons f fs ih =>
    rw [packAll_cons, List.length_append, pack_length, ih, width, width, List.map_cons,
      List.sum_cons]

/-- Where a field of a record stands, and what it holds. -/
theorem slice_packAll (before : List (Nat × Nat)) (f : Nat × Nat) (after : List (Nat × Nat)) :
    slice (packAll (before ++ f :: after)) (width before) f.1 = pack f.1 f.2 := by
  have hsplit : packAll (before ++ f :: after) =
      packAll before ++ (pack f.1 f.2 ++ packAll after) := by
    rw [packAll, List.flatMap_append, List.flatMap_cons]
    rfl
  have hlen : (pack f.1 f.2).length = f.1 := pack_length _ _
  rw [hsplit, slice, ← packAll_length, List.drop_left, List.take_left' hlen]

structure Stored (ws : List Store) (b b' : List Byte) : Prop where
  length : b'.length = b.length
  written : ∀ s ∈ ws, slice b' s.off s.content.length = s.content
  others : ∀ o n, (∀ s ∈ ws, Apart (o, n) s.span) → slice b' o n = slice b o n

theorem store_ok {b : List Byte} {s : Store} (hfits : s.Fits)
    (hin : s.off + s.content.length ≤ b.length) : ∃ b', store b s = .ok b' ∧ Stored [s] b b' := by
  refine ⟨patch b s.off s.content, ?_, patch_length hin, ?_, ?_⟩
  · rw [store, if_neg (not_not.mpr hfits), if_neg (not_lt.mpr hin)]
  · intro t ht
    rw [List.mem_singleton.mp ht]
    exact slice_patch_self hin
  · intro o n hapart
    exact slice_patch_of_disjoint hin (hapart s (List.mem_singleton_self s))

theorem storeAll_ok {ws : List Store} {b : List Byte} (hfits : ∀ s ∈ ws, s.Fits)
    (hin : ∀ s ∈ ws, s.off + s.content.length ≤ b.length)
    (hapart : ws.Pairwise fun s t => Apart s.span t.span) :
    ∃ b', ws.foldlM store b = .ok b' ∧ Stored ws b b' := by
  induction ws generalizing b with
  | nil => exact ⟨b, rfl, rfl, nofun, fun o n _ => rfl⟩
  | cons s ws ih =>
    obtain ⟨hs, hws⟩ := List.pairwise_cons.mp hapart
    obtain ⟨c, hc, hone⟩ := store_ok (hfits s List.mem_cons_self) (hin s List.mem_cons_self)
    have hinc (t : Store) (ht : t ∈ ws) : t.off + t.content.length ≤ c.length := by
      rw [hone.length]
      exact hin t (List.mem_cons_of_mem s ht)
    obtain ⟨d, hd, hrest⟩ := ih (fun t ht => hfits t (List.mem_cons_of_mem s ht)) hinc hws
    refine ⟨d, ?_, hrest.length.trans hone.length, ?_, ?_⟩
    · rw [List.foldlM_cons, hc]
      exact hd
    · intro t ht
      obtain rfl | ht := List.mem_cons.mp ht
      · rw [hrest.others t.off t.content.length hs]
        exact hone.written t (List.mem_singleton_self t)
      · exact hrest.written t ht
    · intro o n hfree
      rw [hrest.others o n fun t ht => hfree t (List.mem_cons_of_mem s ht), hone.others o n]
      intro t ht
      rw [List.mem_singleton.mp ht]
      exact hfree s List.mem_cons_self

/-- A field that was written reads back. -/
theorem Stored.field {ws : List Store} {b b' : List Byte} (h : Stored ws b b')
    (hfits : ∀ s ∈ ws, s.Fits) {o : Nat} (before : List (Nat × Nat)) {after : List (Nat × Nat)}
    {n v : Nat} (hmem : Store.fields o (before ++ (n, v) :: after) ∈ ws) :
    le (slice b' (o + width before) n) = v := by
  have hv : v < 256 ^ n := hfits _ hmem (n, v) (by simp)
  have hwritten : slice b' o (packAll (before ++ (n, v) :: after)).length =
      packAll (before ++ (n, v) :: after) := h.written _ hmem
  have hfield := slice_packAll before (n, v) after
  rw [← hwritten, slice_slice] at hfield
  · rw [hfield, le_pack]
    exact Nat.mod_eq_of_lt hv
  · rw [packAll_length]
    simp [width]

end AipcOs.ByteStores
