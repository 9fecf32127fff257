import Pyuring.Lib.WrittenFile

/-!
# Blocks at fixed strides

Blocks of at most `n` elements, the block of index `i` put at position `i * n` of a buffer
of zeros.  Read as a whole the buffer is the padded blocks one after the other.  A reader
that knows only how many elements there are in all takes that many from the front: that
is right for the blocks one after the other exactly when no element other than a zero
follows a block that is not full.
-/

namespace Pyuring
namespace PaddedBlocks

variable {α : Type*} {n : ℕ} {z : α} {blocks : List (List α)}

/-- The block with zeros behind it, up to length `n`. -/
def pad (n : ℕ) (z : α) (b : List α) : List α := b ++ List.replicate (n - b.length) z

/-- The blocks with zeros behind each. -/
def padAll (n : ℕ) (z : α) (blocks : List (List α)) : List α := blocks.flatMap (pad n z)

/-- Nothing but zeros follows a block that is not full. -/
def ZerosAfterShort (n : ℕ) (z : α) (blocks : List (List α)) : Prop :=
  blocks.Pairwise fun b c => b.length < n → ∀ x ∈ c, x = z

@[simp] theorem padAll_nil : padAll n z [] = [] := rfl

theorem padAll_cons (b : List α) (blocks : List (List α)) :
    padAll n z (b :: blocks) = b ++ (List.replicate (n - b.length) z ++ padAll n z blocks) := by
  rw [padAll, List.flatMap_cons, pad, List.append_assoc]
  rfl

theorem length_padAll (h : ∀ b ∈ blocks, b.length ≤ n) :
    (padAll n z blocks).length = blocks.length * n := by
  induction blocks with
  | nil => simp
  | cons b blocks ih =>
    have hb := h b List.mem_cons_self
    have hrest := ih fun c hc => h c (List.mem_cons_of_mem b hc)
    rw [padAll_cons, List.length_append, List.length_append, List.length_replicate, hrest,
      List.length_cons, Nat.succ_mul]
    omega

theorem length_flatten_le (h : ∀ b ∈ blocks, b.length ≤ n) :
    blocks.flatten.length ≤ blocks.length * n := by
  induction blocks with
  | nil => simp
  | cons b blocks ih =>
    have hb := h b List.mem_cons_self
    have hrest := ih fun c hc => h c (List.mem_cons_of_mem b hc)
    rw [List.flatten_cons, List.length_append, List.length_cons, Nat.succ_mul]
    omega

/-- An element of the padded blocks is a zero, or one of the blocks' elements that has not
moved to the front. -/
theorem getElem?_padAll (j : ℕ) (h : ∀ b ∈ blocks, b.length ≤ n) :
    (padAll n z blocks)[j]? = none ∨ (padAll n z blocks)[j]? = some z ∨
      ∃ i ≤ j, (padAll n z blocks)[j]? = blocks.flatten[i]? := by
  induction blocks generalizing j with
  | nil => exact Or.inl rfl
  | cons b blocks ih =>
    have hb := h b List.mem_cons_self
    rw [padAll_cons, List.flatten_cons]
    rcases Nat.lt_or_ge j b.length with hj | hj
    · refine Or.inr (Or.inr ⟨j, Nat.le_refl j, ?_⟩)
      rw [List.getElem?_append_left hj, List.getElem?_append_left hj]
    rw [List.getElem?_append_right hj]
    rcases Nat.lt_or_ge (j - b.length) (n - b.length) with hz | hz
    · refine Or.inr (Or.inl ?_)
      rw [List.getElem?_append_left (by rwa [List.length_replicate]), List.getElem?_replicate,
        if_pos hz]
    rw [List.getElem?_append_right (by rwa [List.length_replicate]), List.length_replicate]
    rcases ih (j - b.length - (n - b.length)) fun c hc => h c (List.mem_cons_of_mem b hc) with
      hnone | hzero | ⟨i, hi, heq⟩
    · exact Or.inl hnone
    · exact Or.inr (Or.inl hzero)
    · refine Or.inr (Or.inr ⟨b.length + i, by omega, ?_⟩)
      rw [heq, List.getElem?_append_right (Nat.le_add_right _ _), Nat.add_sub_cancel_left]

/-- With zeros before them the padded blocks start with the blocks only if these are
zeros. -/
theorem eq_zero_of_take_shifted {d : ℕ} (hd : 0 < d) (h : ∀ b ∈ blocks, b.length ≤ n)
    (htake : (List.replicate d z ++ padAll n z blocks).take blocks.flatten.length =
      blocks.flatten) : ∀ (m : ℕ) (x : α), blocks.flatten[m]? = some x → x = z := by
  intro m
  induction m using Nat.strong_induction_on with
  | _ m ih =>
    intro x hx
    have hlt : m < blocks.flatten.length := (List.getElem?_eq_some_iff.mp hx).1
    have hm : (List.replicate d z ++ padAll n z blocks)[m]? = some x := by
      rw [← hx, ← List.getElem?_take_of_lt hlt, htake]
    rcases Nat.lt_or_ge m d with hmd | hmd
    · rw [List.getElem?_append_left (by rwa [List.length_replicate]), List.getElem?_replicate,
        if_pos hmd] at hm
      exact (Option.some.inj hm).symm
    · -- the element has come from further to the front
      rw [List.getElem?_append_right (by rwa [List.length_replicate]), List.length_replicate] at hm
      rcases getElem?_padAll (z := z) (m - d) h with hnone | hzero | ⟨i, hi, heq⟩
      · exact absurd (hnone.symm.trans hm) (by simp)
      · exact Option.some.inj (hm.symm.trans hzero)
      · exact ih i (by omega) x (heq.symm.trans hm)

theorem padAll_eq_replicate (h : ∀ b ∈ blocks, b.length ≤ n)
    (hzero : ∀ b ∈ blocks, ∀ x ∈ b, x = z) :
    padAll n z blocks = List.replicate (blocks.length * n) z := by
  refine List.eq_replicate_iff.mpr ⟨length_padAll h, ?_⟩
  intro x hx
  obtain ⟨b, hb, hx⟩ := List.mem_flatMap.mp hx
  rcases List.mem_append.mp hx with hx | hx
  · exact hzero b hb x hx
  · exact List.eq_of_mem_replicate hx

theorem take_shifted_iff {d : ℕ} (hd : 0 < d) (h : ∀ b ∈ blocks, b.length ≤ n) :
    (List.replicate d z ++ padAll n z blocks).take blocks.flatten.length = blocks.flatten ↔
      ∀ b ∈ blocks, ∀ x ∈ b, x = z := by
  constructor
  · intro htake b hb x hx
    obtain ⟨m, hm⟩ := List.mem_iff_getElem?.mp (List.mem_flatten.mpr ⟨b, hb, hx⟩)
    exact eq_zero_of_take_shifted hd h htake m x hm
  · intro hzero
    have hflat : blocks.flatten = List.replicate blocks.flatten.length z := by
      refine List.eq_replicate_iff.mpr ⟨rfl, ?_⟩
      intro x hx
      obtain ⟨b, hb, hx⟩ := List.mem_flatten.mp hx
      exact hzero b hb x hx
    have hle := length_flatten_le h
    rw [padAll_eq_replicate h hzero, List.replicate_append_replicate, List.take_replicate,
      Nat.min_eq_left (by omega)]
    exact hflat.symm

/-- **The front of the padded blocks** is the blocks one after the other, exactly when
nothing but zeros follows a block that is not full. -/
theorem take_padAll_iff (h : ∀ b ∈ blocks, b.length ≤ n) :
    (padAll n z blocks).take blocks.flatten.length = blocks.flatten ↔
      ZerosAfterShort n z blocks := by
  induction blocks with
  | nil => simp [ZerosAfterShort]
  | cons b blocks ih =>
    have hb := h b List.mem_cons_self
    have hrest : ∀ c ∈ blocks, c.length ≤ n := fun c hc => h c (List.mem_cons_of_mem b hc)
    rw [padAll_cons, List.flatten_cons, List.length_append, List.take_length_add_append,
      List.append_cancel_left_eq, ZerosAfterShort, List.pairwise_cons]
    rcases Nat.lt_or_ge b.length n with hshort | hfull
    · rw [take_shifted_iff (by omega) hrest]
      constructor
      · intro hzero
        exact ⟨fun c hc _ => hzero c hc,
          List.pairwise_of_forall_mem_list fun _ _ c hc _ => hzero c hc⟩
      · exact fun hand c hc => hand.1 c hc hshort
    · rw [Nat.sub_eq_zero_of_le hfull, List.replicate_zero, List.nil_append, ih hrest]
      exact ⟨fun hz => ⟨fun c _ hlt => absurd hlt (Nat.not_lt.mpr hfull), hz⟩, And.right⟩

/-! ## Blocks written into a buffer -/

/-- The places of the blocks. -/
def strided (n : ℕ) (blocks : List (List α)) : List (ℕ × List α) :=
  blocks.mapIdx fun i b => (i * n, b)

/-- A buffer that has each block at its place reads as the padded blocks. -/
theorem map_range_eq_padAll {f : ℕ → Option α} (hlen : ∀ b ∈ blocks, b.length ≤ n)
    (h : ∀ i b, blocks[i]? = some b → ∀ k < n, f (i * n + k) = b[k]?) :
    (List.range (blocks.length * n)).map (fun p => (f p).getD z) = padAll n z blocks := by
  induction blocks generalizing f with
  | nil => simp
  | cons b blocks ih =>
    have hb := hlen b List.mem_cons_self
    have hrest := ih (f := fun p => f (n + p)) (fun c hc => hlen c (List.mem_cons_of_mem b hc))
      fun i c hc k hk => by
        have hi := h (i + 1) c (by rwa [List.getElem?_cons_succ]) k hk
        rwa [Nat.succ_mul, Nat.add_right_comm, Nat.add_comm] at hi
    have hhead : (List.range n).map (fun p => (f p).getD z) = pad n z b := by
      refine List.ext_getElem ?_ fun k hk _ => ?_
      · rw [List.length_map, List.length_range, pad, List.length_append, List.length_replicate]
        omega
      · rw [List.length_map, List.length_range] at hk
        have h0 := h 0 b rfl k hk
        rw [Nat.zero_mul, Nat.zero_add] at h0
        simp only [List.getElem_map, List.getElem_range, h0, pad]
        rcases Nat.lt_or_ge k b.length with hkb | hkb
        · rw [List.getElem_append_left hkb, List.getElem?_eq_getElem hkb, Option.getD_some]
        · rw [List.getElem_append_right hkb, List.getElem_replicate, List.getElem?_eq_none hkb,
            Option.getD_none]
    rw [List.length_cons, Nat.succ_mul, Nat.add_comm, List.range_add, List.map_append, hhead,
      List.map_map]
    exact congrArg (pad n z b ++ ·) hrest

/-- Blocks put at their places in any order leave each block at its place. -/
theorem byte_of_perm_strided {ws : List (ℕ × List α)} (hperm : ws.Perm (strided n blocks))
    (hlen : ∀ b ∈ blocks, b.length ≤ n) {i : ℕ} {b : List α} (hb : blocks[i]? = some b) {k : ℕ}
    (hk : k < n) : (SparseFile.ofWrites ws).byte (i * n + k) = b[k]? := by
  have hplace : ∀ w ∈ ws, ∃ j c, blocks[j]? = some c ∧ w = (j * n, c) := by
    intro w hw
    obtain ⟨j, hj, rfl⟩ := List.mem_mapIdx.mp (hperm.mem_iff.mp hw)
    exact ⟨j, blocks[j], List.getElem?_eq_getElem hj, rfl⟩
  -- the block with index `j` reaches no place of another block
  have hcover : ∀ j c p, blocks[j]? = some c → (SparseFile.spanOf (j * n, c)).Covers p →
      p / n = j := by
    rintro j c p hc ⟨hle, hlt⟩
    have hc' := hlen c (List.mem_of_getElem? hc)
    simp only [SparseFile.spanOf] at hle hlt
    exact Nat.div_eq_of_lt_le hle (by rw [Nat.succ_mul]; omega)
  have hapart : (strided n blocks).Pairwise SparseFile.Apart := by
    refine List.pairwise_iff_getElem.mpr ?_
    intro j₁ j₂ h₁ h₂ hlt p hp₁ hp₂
    simp only [strided, List.length_mapIdx] at h₁ h₂
    simp only [strided, List.getElem_mapIdx] at hp₁ hp₂
    have heq₁ := hcover j₁ _ p (List.getElem?_eq_getElem h₁) hp₁
    have heq₂ := hcover j₂ _ p (List.getElem?_eq_getElem h₂) hp₂
    omega
  have hapart' : ws.Pairwise SparseFile.Apart :=
    (hperm.pairwise_iff fun hxy p hy hx => hxy p hx hy).mpr hapart
  have hmem : (i * n, b) ∈ ws := by
    obtain ⟨hi, rfl⟩ := List.getElem?_eq_some_iff.mp hb
    exact hperm.mem_iff.mpr (List.mem_mapIdx.mpr ⟨i, hi, rfl⟩)
  rcases Nat.lt_or_ge k b.length with hkb | hkb
  · exact SparseFile.byte_ofWrites_of_mem hapart' hmem hkb
  · rw [List.getElem?_eq_none hkb]
    refine SparseFile.byte_ofWrites_of_notMem ?_
    intro w hw hcov
    obtain ⟨j, c, hc, rfl⟩ := hplace w hw
    have hj : (i * n + k) / n = j := hcover j c _ hc hcov
    have hi : (i * n + k) / n = i := Nat.div_eq_of_lt_le (Nat.le_add_right _ _)
      (by rw [Nat.succ_mul]; omega)
    obtain rfl : i = j := hi.symm.trans hj
    obtain rfl := Option.some.inj (hb.symm.trans hc)
    have hlt : i * n + k < i * n + b.length := hcov.2
    omega

end PaddedBlocks
end Pyuring
