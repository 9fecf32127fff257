import Pyuring.Native.BatchBuffer

/-!
# Blocks at one offset and at many

`read_batch` asks for blocks that follow one another.  Only the last of them with any bytes
can come back short, so the padding of the buffer is behind all of them and the call
returns one contiguous part of the file.

`read_offsets` asks for blocks anywhere in the file and in any order.  A block that the
end of the file cuts short leaves zeros behind it in the buffer, and these are part of
what the call returns when another block with bytes of its own follows in the list.

Both hand offsets over as `long long`, which keeps the lower 64 bits of a number; an
offset from `2 ^ 63` on reads some other place of the file, or none.  And both go by the
number of entries the ring was asked for: on a ring that was cut down a call can be let in
and find no room.
-/

namespace Pyuring
namespace Native
namespace ReadBlocks

open Trace UringCtx PaddedBlocks

variable {content : Content} {n o : ℕ}

/-! ## Offsets as `long long` -/

theorem cLonglong_of_lt {a : ℤ} (h₀ : 0 ≤ a) (h : a < 2 ^ 63) : cLonglong a = a := by
  refine Int.bmod_eq_of_le_mul_two ?_ ?_
  · push_cast
    omega
  · push_cast
    omega

theorem cLonglong_le {a : ℤ} (h : 0 ≤ a) : cLonglong a ≤ a := by
  unfold cLonglong Int.bmod
  push_cast
  split <;> omega

/-- No byte of a file is that far out. -/
theorem slice_of_le (h : 2 ^ 63 ≤ o) : content.slice n o = [] := by
  have hsize := content.2
  rw [Content.slice, List.drop_eq_nil_of_le (by omega), List.take_nil]

/-- As a `long long` the offset is not negative, and finds the same block. -/
def Addressed (content : Content) (n o : ℕ) : Prop :=
  0 ≤ cLonglong o ∧ content.slice n (cLonglong o).toNat = content.slice n o

theorem addressed_of_lt (h : o < 2 ^ 63) : Addressed content n o := by
  have heq : cLonglong (o : ℤ) = o := cLonglong_of_lt (Int.natCast_nonneg o) (by exact_mod_cast h)
  rw [Addressed, heq]
  exact ⟨Int.natCast_nonneg o, rfl⟩

/-- A block found through a `long long` that is not negative is as long at least. -/
theorem length_slice_le (h : 0 ≤ cLonglong (o : ℤ)) :
    (content.slice n o).length ≤ (content.slice n (cLonglong o).toNat).length := by
  have hle := cLonglong_le (Int.natCast_nonneg o)
  rw [length_slice, length_slice]
  omega

/-- When the two are of the same length they are the same. -/
theorem addressed_of_length (h : 0 ≤ cLonglong (o : ℤ))
    (hlen : (content.slice n o).length = (content.slice n (cLonglong o).toNat).length) :
    Addressed content n o := by
  rcases Nat.lt_or_ge o (2 ^ 63) with hlt | hge
  · exact addressed_of_lt hlt
  · refine ⟨h, ?_⟩
    rw [slice_of_le hge] at hlen ⊢
    exact List.eq_nil_of_length_eq_zero hlen.symm

/-! ## The front of the padded blocks -/

theorem length_front (content : Content) (n : ℕ) (offs : List ℤ) :
    (front content n offs).length = (blocksAt content n offs).flatten.length := by
  have hlen : ∀ b ∈ blocksAt content n offs, b.length ≤ n := length_le_of_mem_blocksAt
  rw [front, List.length_take, length_padAll hlen]
  exact Nat.min_eq_left (length_flatten_le hlen)

theorem flatten_eq_front_iff (content : Content) (n : ℕ) (offs : List ℤ) :
    (blocksAt content n offs).flatten = front content n offs ↔
      ZerosAfterShort n 0 (blocksAt content n offs) := by
  rw [eq_comm]
  exact take_padAll_iff length_le_of_mem_blocksAt

/-! ## Arguments -/

/-- A number of 32 bits is handed over as it is. -/
theorem toNat_ofNat_of_lt {m : ℕ} (h : m < 2 ^ 32) : (UInt32.ofNat m).toNat = m := by
  rw [UInt32.toNat_ofNat', Nat.mod_eq_of_lt h]

theorem ofNat_ne_zero {m : ℕ} (hpos : 1 ≤ m) (h : m < 2 ^ 32) : UInt32.ofNat m ≠ 0 := by
  intro hzero
  have hnat := toNat_ofNat_of_lt h
  rw [hzero, UInt32.toNat_zero] at hnat
  omega

/-- Neither factor of a size that fits into an `int` is too large. -/
theorem lt_of_mul_lt {m n : ℕ} (hm : 1 ≤ m) (hn : 1 ≤ n) (h : m * n < 2 ^ 31) :
    m < 2 ^ 32 ∧ n < 2 ^ 32 := by
  have hleft := Nat.mul_le_mul_left m hn
  have hright := Nat.mul_le_mul_right n hm
  omega

/-! ## `read_offsets` -/

/-- The blocks at the offsets, as they are given and as they are read. -/
theorem blocksAt_map_cast (offsets : List ℕ) :
    blocksAt content n (offsets.map fun o : ℕ => cLonglong o) =
      offsets.map fun o : ℕ => content.slice n (cLonglong o).toNat := by
  rw [blocksAt, List.map_map]
  rfl

theorem readsAt_readOffsets (fd : ℤ) (blockSize : ℕ) (offsets : List ℕ) :
    ReadsAt (readOffsets fd blockSize (offsets.map fun o : ℕ => (o : ℤ)) true).fn fd
      (UInt32.ofNat blockSize) (offsets.map fun o : ℕ => cLonglong o) := by
  refine ⟨?_, ?_⟩
  · simp [readOffsets, SyncFn.batch?]
  · simp [readOffsets, SyncFn.preps, Function.comp_def]

theorem valid_readOffsets (cfg : Config) (fd : ℤ) {blockSize : ℕ} (offsets : List ℤ)
    (hblock : 1 ≤ blockSize) (hsize : blockSize < 2 ^ 32) (hne : offsets ≠ [])
    (hentries : offsets.length ≤ cfg.entries) :
    (readOffsets fd blockSize offsets true).fn.valid cfg = true := by
  simp [readOffsets, SyncFn.valid, ofNat_ne_zero hblock hsize, hne, hentries]

/-- The result of `read_offsets` is the blocks one after the other, as far as blocks of
the same lengths are read. -/
theorem flatten_eq_front_iff_addressed (content : Content) (n : ℕ) (offsets : List ℕ)
    (hnonneg : ∀ o ∈ offsets, 0 ≤ cLonglong (o : ℤ)) :
    offsets.flatMap (content.slice n) = front content n (offsets.map fun o : ℕ => cLonglong o) ↔
      (∀ o ∈ offsets, Addressed content n o) ∧
        ZerosAfterShort n 0 (offsets.map (content.slice n)) := by
  have hsame : (∀ o ∈ offsets, Addressed content n o) →
      blocksAt content n (offsets.map fun o : ℕ => cLonglong o) =
        offsets.map (content.slice n) := by
    intro haddr
    rw [blocksAt_map_cast]
    exact List.map_congr_left fun o ho => (haddr o ho).2
  constructor
  · intro heq
    have hlen := congrArg List.length heq
    rw [length_front, blocksAt_map_cast, List.length_flatMap, List.length_flatten,
      List.map_map] at hlen
    have haddr : ∀ o ∈ offsets, Addressed content n o := by
      intro o ho
      refine addressed_of_length (hnonneg o ho) ?_
      refine Nat.le_antisymm (length_slice_le (hnonneg o ho)) (Nat.not_lt.mp ?_)
      intro hlt
      have hsum := List.sum_lt_sum (fun o => (content.slice n o).length)
        (fun o : ℕ => (content.slice n (cLonglong o).toNat).length)
        (fun o ho => length_slice_le (hnonneg o ho)) ⟨o, ho, hlt⟩
      exact absurd hlen (Nat.ne_of_lt hsum)
    refine ⟨haddr, ?_⟩
    rw [← hsame haddr]
    refine (flatten_eq_front_iff content n _).mp ?_
    rw [hsame haddr, ← List.flatMap_def]
    exact heq
  · rintro ⟨haddr, hzeros⟩
    rw [← hsame haddr] at hzeros
    have hfront := (flatten_eq_front_iff content n _).mpr hzeros
    rw [hsame haddr, ← List.flatMap_def] at hfront
    exact hfront

/-- **`read_offsets` returns the requested blocks**, for every kernel that comes back short
only at the end of the file, exactly when the queue has room for all its entries, each offset
finds its block as a `long long`, and no byte other than zero is listed after a block that the
end of the file cuts short. -/
theorem read_offsets_returns_iff (cfg : Config) (u : UringCtx.State) (content : Content) (fd : ℤ)
    (blockSize : ℕ) (offsets : List ℕ) (stale : Prep) (submitRet : ℤ) (hidle : u.ring.Idle)
    (hblock : 1 ≤ blockSize) (hne : offsets ≠ []) (hentries : offsets.length ≤ cfg.entries)
    (hfit : blockSize * offsets.length < 2 ^ 31) (hret : 0 ≤ submitRet) :
    Returns cfg (FromFile content)
        ((readOffsets fd blockSize (offsets.map fun o : ℕ => (o : ℤ)) true).start cfg stale
          submitRet u) (offsets.flatMap (content.slice blockSize)) ↔
      offsets.length ≤ cfg.sqEntries ∧ (∀ o ∈ offsets, Addressed content blockSize o) ∧
        ZerosAfterShort blockSize 0 (offsets.map (content.slice blockSize)) := by
  have hlen : 1 ≤ offsets.length := List.length_pos_of_ne_nil hne
  obtain ⟨hsize, -⟩ := lt_of_mul_lt hblock hlen hfit
  have hnat := toNat_ofNat_of_lt hsize
  have hvalid := valid_readOffsets cfg fd (offsets.map fun o : ℕ => (o : ℤ)) hblock hsize
    (by simpa using hne) (by simpa using hentries)
  rw [returns_iff (readsAt_readOffsets fd blockSize offsets) hvalid hidle hret
    (by simp [readOffsets, hnat, Nat.mul_comm])
    (by rw [List.length_map, hnat, Nat.mul_comm]; exact hfit), hnat, List.length_map]
  refine and_congr_right fun _ => ?_
  constructor
  · rintro ⟨hnonneg, heq⟩
    have hnonneg' : ∀ o ∈ offsets, 0 ≤ cLonglong (o : ℤ) := fun o ho =>
      hnonneg _ (List.mem_map_of_mem ho)
    exact (flatten_eq_front_iff_addressed content blockSize offsets hnonneg').mp heq
  · rintro ⟨haddr, hzeros⟩
    refine ⟨?_, (flatten_eq_front_iff_addressed content blockSize offsets
      fun o ho => (haddr o ho).1).mpr ⟨haddr, hzeros⟩⟩
    intro off hoff
    obtain ⟨o, ho, rfl⟩ := List.mem_map.mp hoff
    exact (haddr o ho).1

/-- Six letters. -/
def letters : Content := ⟨[97, 98, 99, 100, 101, 102], by decide⟩

theorem read_offsets_returns_iff_full :
    Returns fourEntries (FromFile letters)
        ((readOffsets 3 2 ([0, 4].map fun o : ℕ => (o : ℤ)) true).start fourEntries blankPrep 2
          State.init) ([0, 4].flatMap (letters.slice 2)) ↔
      [0, 4].length ≤ fourEntries.sqEntries ∧ (∀ o ∈ [0, 4], Addressed letters 2 o) ∧
        ZerosAfterShort 2 0 ([0, 4].map (letters.slice 2)) :=
  read_offsets_returns_iff fourEntries State.init letters 3 2 [0, 4] blankPrep 2 ⟨rfl, rfl, rfl⟩
    (by decide) (by decide) (by decide) (by decide) (by decide)

/-- The last two letters and then the first four are read as two letters, two zeros and
two more letters. -/
theorem read_offsets_padded : ¬ ∀ (cfg : Config) (u : UringCtx.State) (content : Content) (fd : ℤ)
    (blockSize : ℕ) (offsets : List ℕ) (stale : Prep) (submitRet : ℤ), u.ring.Idle →
    1 ≤ blockSize → offsets ≠ [] → offsets.length ≤ cfg.entries →
    blockSize * offsets.length < 2 ^ 31 → 0 ≤ submitRet →
    Returns cfg (FromFile content)
      ((readOffsets fd blockSize (offsets.map fun o : ℕ => (o : ℤ)) true).start cfg stale
        submitRet u) (offsets.flatMap (content.slice blockSize)) := by
  intro h
  have hreturns := h fourEntries State.init letters 3 4 [4, 0] blankPrep 2 ⟨rfl, rfl, rfl⟩
    (by decide) (by decide) (by decide) (by decide) (by decide)
  obtain ⟨-, -, hbytes⟩ := (returns_iff (readsAt_readOffsets 3 4 [4, 0]) rfl ⟨rfl, rfl, rfl⟩
    (by decide) rfl (by decide) _).mp hreturns
  exact absurd hbytes (by decide)

/-! ## `read_batch` -/

theorem slice_append (content : Content) (m n o : ℕ) :
    content.slice m o ++ content.slice n (o + m) = content.slice (m + n) o := by
  rw [Content.slice, Content.slice, Content.slice, List.take_add, List.drop_drop]

/-- Blocks that follow one another are one part of the file. -/
theorem flatten_contiguous (content : Content) (n o k : ℕ) :
    ((List.range k).map fun i => content.slice n (o + i * n)).flatten =
      content.slice (n * k) o := by
  induction k with
  | zero => simp [Content.slice]
  | succ k ih =>
    rw [List.range_succ, List.map_append, List.flatten_append, ih, List.map_singleton,
      List.flatten_singleton, Nat.mul_comm k n, slice_append, Nat.mul_succ]

/-- A block that the end of the file cuts short is followed by nothing. -/
theorem zerosAfterShort_contiguous (content : Content) (n o k : ℕ) :
    ZerosAfterShort n 0 ((List.range k).map fun i => content.slice n (o + i * n)) := by
  refine List.pairwise_map.mpr (List.pairwise_lt_range.imp ?_)
  intro i j hij hshort x hx
  rw [length_slice] at hshort
  have hmul := Nat.mul_le_mul_right n (Nat.succ_le_of_lt hij)
  rw [Nat.succ_mul] at hmul
  have hnil : content.slice n (o + j * n) = [] := by
    refine List.eq_nil_of_length_eq_zero ?_
    rw [length_slice]
    omega
  rw [hnil] at hx
  exact absurd hx List.not_mem_nil

theorem readsAt_readBatch (fd : ℤ) (blockSize : ℕ) {blocks : ℕ} (offset : ℤ)
    (h : blocks < 2 ^ 32) :
    ReadsAt (readBatch fd blockSize blocks offset).fn fd (UInt32.ofNat blockSize)
      ((List.range blocks).map fun i : ℕ =>
        cLonglong offset + i * (UInt32.ofNat blockSize).toNat) := by
  have hnat := toNat_ofNat_of_lt h
  refine ⟨?_, ?_⟩
  · simp only [readBatch, SyncFn.batch?, hnat, List.length_map, List.length_range]
  · rw [readBatch, SyncFn.preps, hnat]
    apply List.ext_getElem
    · simp
    · intro i h₁ h₂
      simp

theorem valid_readBatch (cfg : Config) (fd : ℤ) {blockSize blocks : ℕ} (offset : ℤ)
    (hblock : 1 ≤ blockSize) (hsize : blockSize < 2 ^ 32) (hblocks : 1 ≤ blocks)
    (hcount : blocks < 2 ^ 32) (hentries : blocks ≤ cfg.entries) :
    (readBatch fd blockSize blocks offset).fn.valid cfg = true := by
  simp [readBatch, SyncFn.valid, ofNat_ne_zero hblock hsize, ofNat_ne_zero hblocks hcount,
    toNat_ofNat_of_lt hcount, hentries]

/-- **`read_batch` is one contiguous read**, for every kernel that comes back short only at
the end of the file, as long as the queue has room for its entries and the offset of its last
block is a `long long`. -/
theorem read_batch_contiguous (cfg : Config) (u : UringCtx.State) (content : Content) (fd : ℤ)
    (blockSize blocks offset : ℕ) (stale : Prep) (submitRet : ℤ) (hidle : u.ring.Idle)
    (hblock : 1 ≤ blockSize) (hblocks : 1 ≤ blocks) (hentries : blocks ≤ cfg.entries)
    (hroom : blocks ≤ cfg.sqEntries) (hfit : blockSize * blocks < 2 ^ 31)
    (hoffset : offset + blockSize * (blocks - 1) < 2 ^ 63) (hret : 0 ≤ submitRet) :
    Returns cfg (FromFile content)
      ((readBatch fd blockSize blocks offset).start cfg stale submitRet u)
      (content.slice (blockSize * blocks) offset) := by
  obtain ⟨hsize, hcount⟩ := lt_of_mul_lt hblock hblocks hfit
  have hnat := toNat_ofNat_of_lt hsize
  have hoff : cLonglong (offset : ℤ) = offset :=
    cLonglong_of_lt (Int.natCast_nonneg _) (by exact_mod_cast (by omega : offset < 2 ^ 63))
  refine (returns_iff (readsAt_readBatch fd blockSize offset hcount)
    (valid_readBatch cfg fd offset hblock hsize hblocks hcount hentries) hidle hret
    (by simp [readBatch, hnat, Nat.mul_comm]) (by simp [hnat, Nat.mul_comm]; omega) _).mpr
      ⟨?_, ?_, ?_⟩
  · rwa [List.length_map, List.length_range]
  · intro off hmem
    obtain ⟨i, -, rfl⟩ := List.mem_map.mp hmem
    rw [hoff]
    exact Int.add_nonneg (Int.natCast_nonneg _)
      (Int.mul_nonneg (Int.natCast_nonneg _) (Int.natCast_nonneg _))
  · have hblocksAt : blocksAt content blockSize ((List.range blocks).map fun i : ℕ =>
        (offset : ℤ) + i * blockSize) =
        (List.range blocks).map fun i => content.slice blockSize (offset + i * blockSize) := by
      rw [blocksAt, List.map_map]
      refine List.map_congr_left ?_
      intro i _
      simp only [Function.comp_apply]
      congr 1
    have hzeros := zerosAfterShort_contiguous content blockSize offset blocks
    rw [← hblocksAt] at hzeros
    rw [hnat, hoff, ← (flatten_eq_front_iff content blockSize _).mpr hzeros, hblocksAt,
      flatten_contiguous]

theorem read_batch_contiguous_letters :
    Returns fourEntries (FromFile letters)
      ((readBatch 3 4 2 ((1 : ℕ) : ℤ)).start fourEntries blankPrep 2 State.init)
      (letters.slice (4 * 2) 1) :=
  read_batch_contiguous fourEntries State.init letters 3 4 2 1 blankPrep 2 ⟨rfl, rfl, rfl⟩
    (by decide) (by decide) (by decide) (by decide) (by decide) (by decide) (by decide)

/-- A ring asked for 65536 entries and cut down to the largest queue there is. -/
def clamped : Config := ⟨65536, 32768, by decide, by decide⟩

/-- Neither condition can go: an offset of `2 ^ 64` is read as zero, and 40000 blocks are let in
by the clamped ring and find no room. -/
theorem read_batch_not_contiguous :
    (¬ ∀ (cfg : Config) (u : UringCtx.State) (content : Content) (fd : ℤ)
      (blockSize blocks offset : ℕ) (stale : Prep) (submitRet : ℤ), u.ring.Idle →
      1 ≤ blockSize → 1 ≤ blocks → blocks ≤ cfg.entries → blocks ≤ cfg.sqEntries →
      blockSize * blocks < 2 ^ 31 → 0 ≤ submitRet →
      Returns cfg (FromFile content)
        ((readBatch fd blockSize blocks offset).start cfg stale submitRet u)
        (content.slice (blockSize * blocks) offset)) ∧
    ¬ ∀ (cfg : Config) (u : UringCtx.State) (content : Content) (fd : ℤ)
      (blockSize blocks offset : ℕ) (stale : Prep) (submitRet : ℤ), u.ring.Idle →
      1 ≤ blockSize → 1 ≤ blocks → blocks ≤ cfg.entries → blockSize * blocks < 2 ^ 31 →
      offset + blockSize * (blocks - 1) < 2 ^ 63 → 0 ≤ submitRet →
      Returns cfg (FromFile content)
        ((readBatch fd blockSize blocks offset).start cfg stale submitRet u)
        (content.slice (blockSize * blocks) offset) := by
  refine ⟨?_, ?_⟩
  · intro h
    have hreturns := h fourEntries State.init letters 3 1 1 18446744073709551616 blankPrep 1
      ⟨rfl, rfl, rfl⟩ (by decide) (by decide) (by decide) (by decide) (by decide) (by decide)
    have hvalid := valid_readBatch fourEntries 3 18446744073709551616 (Nat.le_refl 1) (by decide)
      (Nat.le_refl 1) (by decide) (by decide)
    obtain ⟨-, -, hbytes⟩ := (returns_iff
      (readsAt_readBatch 3 1 18446744073709551616 (by decide)) hvalid ⟨rfl, rfl, rfl⟩ (by decide)
      rfl (by decide) _).mp hreturns
    rw [slice_of_le (by norm_num)] at hbytes
    exact absurd hbytes (by decide)
  · intro h
    have hidle : UringCtx.State.init.ring.Idle := ⟨rfl, rfl, rfl⟩
    have hreturns := h clamped State.init letters 3 1 40000 0 blankPrep 1 hidle
      (by decide) (by decide) (by decide) (by decide) (by decide) (by decide)
    have hvalid : (readBatch 3 1 40000 0).fn.valid clamped = true :=
      valid_readBatch clamped 3 0 (Nat.le_refl 1) (by decide) (by decide) (by decide) (by decide)
    obtain ⟨hcall, hraise⟩ := raises_of_no_room (readsAt_readBatch 3 1 0 (by decide)) hvalid hidle
      (by rw [List.length_map, List.length_range]; decide) blankPrep 1
    have hbytes := hreturns.returned _ (.refl _) hcall
    exact absurd (hraise.symm.trans hbytes) (by simp)

end ReadBlocks
end Native
end Pyuring
