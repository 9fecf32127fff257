import Pyuring.Lib.SparseFile
import Pyuring.Lib.Tiling

/-!
# Files written piece by piece

A file that starts empty and is written in blocks, in any order.  Where the blocks tile
a range, the order does not matter: the file is that range, and each byte of it is the
byte of the one block that covers it.

Where the blocks only begin the pieces of a tiling, each as far as it was moved, `whole_iff`
says when the file has no hole.
-/

namespace Pyuring
namespace SparseFile

variable {β : Type*}

/-- The file that writing the blocks leaves, the newest block first. -/
def ofWrites : List (ℕ × List β) → SparseFile β
  | [] => .empty
  | w :: ws => (ofWrites ws).write w.1 w.2

/-- The place of a block. -/
def spanOf (w : ℕ × List β) : Span := ⟨w.1, w.2.length, w.2.length⟩

/-- The blocks have no position in common. -/
def Apart (w w' : ℕ × List β) : Prop := ∀ p, (spanOf w).Covers p → ¬ (spanOf w').Covers p

theorem ext_of {f g : SparseFile β} (hsize : f.size = g.size) (hbyte : ∀ p, f.byte p = g.byte p) :
    f = g := by
  cases f
  cases g
  congr
  funext p
  exact hbyte p

variable {ws : List (ℕ × List β)}

theorem byte_ofWrites_of_notMem {p : ℕ} (h : ∀ w ∈ ws, ¬ (spanOf w).Covers p) :
    (ofWrites ws).byte p = none := by
  induction ws with
  | nil => rfl
  | cons w ws ih =>
    have hnot : ¬ (w.1 ≤ p ∧ p < w.1 + w.2.length) := h w List.mem_cons_self
    rw [ofWrites, byte_write_of_notMem hnot]
    exact ih fun w' hw' => h w' (List.mem_cons_of_mem w hw')

theorem byte_ofWrites_of_mem (hapart : ws.Pairwise Apart) {w : ℕ × List β} (hw : w ∈ ws) {k : ℕ}
    (hk : k < w.2.length) : (ofWrites ws).byte (w.1 + k) = w.2[k]? := by
  induction ws with
  | nil => exact absurd hw List.not_mem_nil
  | cons v ws ih =>
    obtain ⟨hv, hrest⟩ := List.pairwise_cons.mp hapart
    rw [ofWrites]
    rcases List.mem_cons.mp hw with rfl | hw
    · rw [byte_write_of_mem ⟨Nat.le_add_right _ _, by omega⟩, Nat.add_sub_cancel_left]
    · have hnot : ¬ (v.1 ≤ w.1 + k ∧ w.1 + k < v.1 + v.2.length) := fun hcov =>
        hv w hw (w.1 + k) hcov ⟨Nat.le_add_right _ _, Nat.add_lt_add_left hk w.1⟩
      rw [byte_write_of_notMem hnot]
      exact ih hrest hw

theorem byte_ofWrites_ne_none_iff {p : ℕ} :
    (ofWrites ws).byte p ≠ none ↔ ∃ w ∈ ws, (spanOf w).Covers p := by
  induction ws with
  | nil => simp [ofWrites, empty]
  | cons w ws ih =>
    rw [ofWrites, List.exists_mem_cons_iff]
    by_cases hcov : w.1 ≤ p ∧ p < w.1 + w.2.length
    · rw [byte_write_of_mem hcov]
      refine iff_of_true ?_ (Or.inl hcov)
      rw [Ne, List.getElem?_eq_none_iff]
      omega
    · rw [byte_write_of_notMem hcov, ih]
      exact ⟨Or.inr, fun h => h.resolve_left hcov⟩

theorem size_ofWrites_le {n : ℕ} (h : ∀ w ∈ ws, w.2 ≠ [] → w.1 + w.2.length ≤ n) :
    (ofWrites ws).size ≤ n := by
  induction ws with
  | nil => exact Nat.zero_le n
  | cons w ws ih =>
    have hw := h w List.mem_cons_self
    have hrest := ih fun w' hw' => h w' (List.mem_cons_of_mem w hw')
    rw [ofWrites, write]
    simp only
    split
    · exact hrest
    · next hne => exact Nat.max_le.mpr ⟨hrest, hw hne⟩

theorem le_size_ofWrites {w : ℕ × List β} (hw : w ∈ ws) (hne : w.2 ≠ []) :
    w.1 + w.2.length ≤ (ofWrites ws).size := by
  induction ws with
  | nil => exact absurd hw List.not_mem_nil
  | cons v ws ih =>
    rw [ofWrites]
    rcases List.mem_cons.mp hw with rfl | hw
    · rw [size_write hne]
      exact Nat.le_max_right _ _
    · exact Nat.le_trans (ih hw) (size_le_size_write _ _ _)

/-! ## A piece that moves

The file grows by the block that a piece of a tiling moves. -/

section Moved

variable {a b : ℕ} {cs : List Span} {c : Span} {f : SparseFile β} (bs : List β)
  (h : Tiles a cs b) (hc : c ∈ cs)

include h hc

/-- No piece reaches beyond the end of the file. -/
theorem le_size_write_of_moved (hsize : ∀ d ∈ cs, 0 < d.moved → d.off + d.moved ≤ f.size) :
    ∀ d ∈ Span.setMoved c.off bs.length cs, 0 < d.moved →
      d.off + d.moved ≤ (f.write c.off bs).size := by
  intro d hd hpos
  rcases (h.mem_setMoved_iff hc).mp hd with rfl | ⟨hd, -⟩
  · rw [size_write (List.ne_nil_of_length_pos hpos)]
    exact Nat.le_max_right _ _
  · exact Nat.le_trans (hsize d hd hpos) (size_le_size_write _ _ _)

/-- Some piece ends where the file ends, unless the file is empty. -/
theorem size_write_of_moved (hm : c.moved = 0)
    (hsize : f.size = 0 ∨ ∃ d ∈ cs, 0 < d.moved ∧ d.off + d.moved = f.size) :
    (f.write c.off bs).size = 0 ∨ ∃ d ∈ Span.setMoved c.off bs.length cs,
      0 < d.moved ∧ d.off + d.moved = (f.write c.off bs).size := by
  -- a piece that has moved is another one, and stays as it is
  have hstay : ∀ d ∈ cs, 0 < d.moved → d ∈ Span.setMoved c.off bs.length cs := by
    intro d hd hpos
    refine (h.mem_setMoved_iff hc).mpr (Or.inr ⟨hd, fun hoff => ?_⟩)
    obtain rfl := h.eq_of_off_eq hd hc hoff
    omega
  have hold : (f.write c.off bs).size = f.size → (f.write c.off bs).size = 0 ∨
      ∃ d ∈ Span.setMoved c.off bs.length cs,
        0 < d.moved ∧ d.off + d.moved = (f.write c.off bs).size := by
    intro heq
    rw [heq]
    exact hsize.imp_right fun ⟨d, hd, hpos, hend⟩ => ⟨d, hstay d hd hpos, hpos, hend⟩
  rcases eq_or_ne bs [] with rfl | hne
  · exact hold (by rw [write_nil])
  rcases Nat.le_total (c.off + bs.length) f.size with hle | hle
  · exact hold (by rw [size_write hne, Nat.max_eq_left hle])
  · refine Or.inr ⟨{ c with moved := bs.length }, ?_, List.length_pos_of_ne_nil hne, ?_⟩
    · exact (h.mem_setMoved_iff hc).mpr (Or.inl rfl)
    · rw [size_write hne, Nat.max_eq_right hle]

end Moved

/-! ## Blocks that tile a range -/

variable {cs : List Span} {b : ℕ}

/-- The blocks are those of a tiling, in some order. -/
theorem pairwise_apart (h : Tiles 0 cs b) (hperm : (ws.map spanOf).Perm cs) :
    ws.Pairwise Apart := by
  have hfar : cs.Pairwise fun c d => c.off + c.len ≤ d.off ∨ d.off + d.len ≤ c.off :=
    h.pairwise.imp Or.inl
  have hspans := (hperm.pairwise_iff fun hcd => hcd.symm).mpr hfar
  refine (List.pairwise_map.mp hspans).imp fun {w w'} hww' p hp hp' => ?_
  obtain ⟨h₁, h₂⟩ := hp
  obtain ⟨h₃, h₄⟩ := hp'
  rcases hww' with hle | hle
  · exact absurd (Nat.lt_of_lt_of_le h₂ (Nat.le_trans hle h₃)) (Nat.lt_irrefl p)
  · exact absurd (Nat.lt_of_lt_of_le h₄ (Nat.le_trans hle h₁)) (Nat.lt_irrefl p)

theorem moved_eq_len_of_perm (hperm : (ws.map spanOf).Perm cs) {c : Span} (hc : c ∈ cs) :
    c.moved = c.len := by
  obtain ⟨w, -, rfl⟩ := List.mem_map.mp (hperm.mem_iff.mpr hc)
  rfl

/-- Every position of the range is written by one block. -/
theorem countP_spanOf (h : Tiles 0 cs b) (hperm : (ws.map spanOf).Perm cs) (p : ℕ) :
    ws.countP (fun w => decide ((spanOf w).Covers p)) = if p < b then 1 else 0 := by
  have hcount := h.countP_covers (fun c hc => moved_eq_len_of_perm hperm hc) p
  rw [← hperm.countP_eq, List.countP_map] at hcount
  simpa [Function.comp_def] using hcount

theorem size_ofWrites (h : Tiles 0 cs b) (hperm : (ws.map spanOf).Perm cs) :
    (ofWrites ws).size = b := by
  refine Nat.le_antisymm (size_ofWrites_le ?_) ?_
  · intro w hw _
    exact (h.bounds (hperm.mem_iff.mp (List.mem_map_of_mem hw))).2.1
  · rcases Nat.eq_zero_or_pos b with hb | hb
    · rw [hb]
      exact Nat.zero_le _
    · obtain ⟨c, hc, hcov⟩ := h.exists_mem (Nat.zero_le (b - 1)) (Nat.sub_lt hb Nat.zero_lt_one)
      obtain ⟨w, hw, rfl⟩ := List.mem_map.mp (hperm.mem_iff.mpr hc)
      have hlen : 0 < w.2.length := (h.bounds hc).2.2
      have hle := le_size_ofWrites hw (List.ne_nil_of_length_pos hlen)
      have hcov' : b - 1 < w.1 + w.2.length := hcov.2
      omega

theorem byte_ofWrites_of_le (h : Tiles 0 cs b) (hperm : (ws.map spanOf).Perm cs) {p : ℕ}
    (hp : b ≤ p) : (ofWrites ws).byte p = none := by
  refine byte_ofWrites_of_notMem ?_
  intro w hw hcov
  have hbounds := (h.bounds (hperm.mem_iff.mp (List.mem_map_of_mem hw))).2.1
  have hcov' : p < w.1 + w.2.length := hcov.2
  change w.1 + w.2.length ≤ b at hbounds
  omega

/-! ## Blocks that begin the pieces of a tiling -/

section Begun

variable (h : Tiles 0 cs b) (hle : ∀ c ∈ cs, c.moved ≤ c.len)
  (hperm : (ws.map fun w => (w.1, w.2.length)).Perm (cs.map fun c => (c.off, c.moved)))

include hperm

/-- Each piece was begun with a block as long as what was moved of it. -/
theorem exists_block {c : Span} (hc : c ∈ cs) : ∃ w ∈ ws, w.1 = c.off ∧ w.2.length = c.moved := by
  have hmem : (c.off, c.moved) ∈ cs.map fun c => (c.off, c.moved) :=
    List.mem_map_of_mem (f := fun c : Span => (c.off, c.moved)) hc
  obtain ⟨w, hw, heq⟩ := List.mem_map.mp (hperm.mem_iff.mpr hmem)
  exact ⟨w, hw, Prod.mk.inj heq⟩

theorem exists_piece {w : ℕ × List β} (hw : w ∈ ws) :
    ∃ c ∈ cs, c.off = w.1 ∧ c.moved = w.2.length := by
  have hmem : (w.1, w.2.length) ∈ ws.map fun w => (w.1, w.2.length) :=
    List.mem_map_of_mem (f := fun w : ℕ × List β => (w.1, w.2.length)) hw
  obtain ⟨c, hc, heq⟩ := List.mem_map.mp (hperm.mem_iff.mp hmem)
  exact ⟨c, hc, Prod.mk.inj heq⟩

/-- What was written is what was moved. -/
theorem byte_ne_none_iff_covered {p : ℕ} :
    (ofWrites ws).byte p ≠ none ↔ ∃ c ∈ cs, c.Covers p := by
  rw [byte_ofWrites_ne_none_iff]
  constructor
  · rintro ⟨w, hw, hcov⟩
    obtain ⟨c, hc, hoff, hmoved⟩ := exists_piece hperm hw
    have hcov : w.1 ≤ p ∧ p < w.1 + w.2.length := hcov
    exact ⟨c, hc, by omega, by omega⟩
  · rintro ⟨c, hc, hcov⟩
    obtain ⟨w, hw, hoff, hlen⟩ := exists_block hperm hc
    have hcov : c.off ≤ p ∧ p < c.off + c.moved := hcov
    refine ⟨w, hw, ?_⟩
    show w.1 ≤ p ∧ p < w.1 + w.2.length
    omega

include h hle

/-- When only the tail came back short, the file is as long as what was moved. -/
theorem size_eq_total (hshort : Span.ShortOnlyAtTail cs) : (ofWrites ws).size = Span.total cs := by
  refine Nat.le_antisymm (size_ofWrites_le ?_) ?_
  · intro w hw hne
    obtain ⟨c, hc, hoff, hmoved⟩ := exists_piece hperm hw
    have hpos := List.length_pos_iff.mpr hne
    have hend := h.end_le_of_shortOnlyAtTail hle hshort hc (by omega)
    omega
  · rcases Nat.eq_zero_or_pos (Span.total cs) with h0 | hpos
    · rw [h0]
      exact Nat.zero_le _
    · obtain ⟨c, hc, hcov⟩ := (h.covered_iff hle).mpr hshort (Span.total cs - 1) (Nat.zero_le _)
        (by omega)
      have hcov : c.off ≤ Span.total cs - 1 ∧ Span.total cs - 1 < c.off + c.moved := hcov
      obtain ⟨w, hw, hoff, hlen⟩ := exists_block hperm hc
      have hsize := le_size_ofWrites hw (List.ne_nil_of_length_pos (by omega))
      omega

/-- **When a file has no hole**: when only the tail came back short, and in no other case. -/
theorem whole_iff : (ofWrites ws).Whole ↔ Span.ShortOnlyAtTail cs := by
  constructor
  · intro hwhole
    refine h.shortOnlyAtTail_iff.mpr ?_
    intro c hc d hd hlt hshort
    by_contra hne
    obtain ⟨w, hw, hoff, hlen⟩ := exists_block hperm hd
    have hsize := le_size_ofWrites hw (List.ne_nil_of_length_pos (by omega))
    have hcd := h.end_le_off hc hd hlt
    -- the position where `c` came back short lies in no other piece
    obtain ⟨e, he, hcov⟩ := (byte_ne_none_iff_covered hperm).mp
      (hwhole (c.off + c.moved) (by omega))
    have hcov : e.off ≤ c.off + c.moved ∧ c.off + c.moved < e.off + e.moved := hcov
    have hmoved := hle e he
    rcases Nat.lt_trichotomy e.off c.off with hec | hec | hec
    · have := h.end_le_off he hc hec
      omega
    · rw [h.eq_of_off_eq he hc hec] at hcov
      omega
    · have := h.end_le_off hc he hec
      omega
  · intro hshort p hp
    rw [size_eq_total h hle hperm hshort] at hp
    rw [byte_ne_none_iff_covered hperm]
    exact (h.covered_iff hle).mpr hshort p (Nat.zero_le p) (by omega)

end Begun

end SparseFile
end Pyuring
