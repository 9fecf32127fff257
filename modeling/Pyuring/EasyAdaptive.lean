import Pyuring.EasyDurability
import Pyuring.Native.SizeClamping

/-!
# The sizes of mode `"auto"`

In mode `"auto"`, `copy` and `write` hand `_adaptive_buffer_size` to the native pipeline: one
block in the first quarter of the file, then two, four and eight.  The quotient that says in
which quarter an offset is gets rounded to a double, which shows in files of more than two
pebibytes only.  The pipeline probes the callback at the multiples of the block size, and its
chunks start where the chunks before them end.

`auto_chunks` says which chunks come out of this.  Every answer is a whole number of blocks, so
the chunks start at multiples of the block size, and every answer that the loop gets is one
that the probing pass has seen.  An answer of at most 64 MiB is therefore always taken, and an
answer above it is never taken: there the chunk is a single block.
-/

namespace Pyuring
namespace Easy

open Native Trace Rounding

/-- How many blocks `_adaptive_buffer_size` asks for. -/
def factor (off total : ℕ) : ℕ :=
  if trueDiv off total < 1 / 4 then 1
  else if trueDiv off total < 1 / 2 then 2
  else if trueDiv off total < 3 / 4 then 4
  else 8

/-- The same with the offset compared with the quarters of the file. -/
def quarterFactor (off total : ℕ) : ℕ :=
  if 4 * off < total then 1
  else if 2 * off < total then 2
  else if 4 * off < 3 * total then 4
  else 8

/-- The size of a chunk at `off` that is not cut by the end of the file. -/
def autoSize (total block off : ℕ) : ℕ :=
  if factor off total * block ≤ bufferLimit then factor off total * block else block

/-- `_adaptive_buffer_size` as the native loop calls it. -/
def adaptiveSize : PureSize := fun off total default =>
  callbackWrapper adaptiveBufferSize 0 off total default

/-- The requests of kind `op` are the chunks of a file of `total` bytes.  They get shorter at
the end of the file only, unless eight blocks are too many and two are not. -/
structure Adapted (total block : ℕ) (op : Opcode) (log : List Ev) : Prop where
  aligned : ∀ q, Ev.prep q ∈ log → q.opcode = op → q.off < total ∧ block ∣ q.off
  len : ∀ q, Ev.prep q ∈ log → q.opcode = op →
    q.len = min (autoSize total block q.off) (total - q.off)
  growing : 8 * block ≤ bufferLimit ∨ bufferLimit < 2 * block →
    ∀ p, Ev.prep p ∈ log → p.opcode = op → ∀ q, Ev.prep q ∈ log → q.opcode = op →
      p.off ≤ q.off → p.len ≤ q.len ∨ q.off + q.len = total

variable {total block off : ℕ}

theorem factor_pos (off total : ℕ) : 0 < factor off total := by
  unfold factor
  split_ifs <;> decide

theorem factor_le (off total : ℕ) : factor off total ≤ 8 := by
  unfold factor
  split_ifs <;> decide

theorem trueDiv_mono {off' : ℕ} (h : off ≤ off') : trueDiv off total ≤ trueDiv off' total := by
  have hoff : (off : ℚ) ≤ off' := by exact_mod_cast h
  exact nearest_mono (by decide) (by positivity) (div_le_div_of_nonneg_right hoff (by positivity))

theorem factor_mono {off' : ℕ} (h : off ≤ off') : factor off total ≤ factor off' total := by
  have hdiv := @trueDiv_mono total off off' h
  unfold factor
  split_ifs <;> first | omega | (exfalso; linarith)

/-- In a file of at most two pebibytes the rounding does not show: the quotient of an offset
before a quarter stays before the float under that quarter. -/
theorem trueDiv_lt_iff {k : ℕ} {b c : ℚ} (hfloat : nearest 53 c = c) (hbelow : nearest 53 b = b)
    (hbc : b < c) (hb : c - 1 / 2 ^ 53 ≤ b) (hc : 4 * c = k) (hpos : 0 < total)
    (hsmall : total ≤ 2 ^ 51) : trueDiv off total < c ↔ 4 * off < k * total := by
  have htotal : (0 : ℚ) < total := by exact_mod_cast hpos
  have hcpos : 0 ≤ c := by
    have hk : (0 : ℚ) ≤ k := by positivity
    linarith
  have hexact : (off : ℚ) / total < c ↔ 4 * off < k * total := by
    rw [div_lt_iff₀ htotal, ← Nat.cast_lt (α := ℚ)]
    push_cast
    rw [← hc]
    constructor <;> intro h <;> linarith
  have hunder : (off : ℚ) / total < c → (off : ℚ) / total ≤ b := by
    intro h
    have hlt := hexact.mp h
    have hsucc : (4 * off + 1 : ℚ) ≤ k * total := by exact_mod_cast hlt
    have hlimit : (total : ℚ) ≤ 2 ^ 51 := by exact_mod_cast hsmall
    have hgap : (off : ℚ) / total ≤ c - 1 / 2 ^ 53 := by
      rw [div_le_iff₀ htotal]
      rw [← hc] at hsucc
      linarith
    exact hgap.trans hb
  rw [trueDiv, nearest_lt_iff (by decide) (by positivity) hcpos hfloat hbelow hbc hunder, hexact]

theorem factor_eq_quarterFactor (h : off < total) (hsmall : total ≤ 2 ^ 51) :
    factor off total = quarterFactor off total := by
  have hpos : 0 < total := by omega
  have hone : trueDiv off total < 1 / 4 ↔ 4 * off < 1 * total :=
    trueDiv_lt_iff (b := 1 / 4 - 1 / 2 ^ 55) (by decide +kernel) (by decide +kernel) (by norm_num)
      (by norm_num) (by norm_num) hpos hsmall
  have htwo : trueDiv off total < 1 / 2 ↔ 4 * off < 2 * total :=
    trueDiv_lt_iff (b := 1 / 2 - 1 / 2 ^ 54) (by decide +kernel) (by decide +kernel) (by norm_num)
      (by norm_num) (by norm_num) hpos hsmall
  have hthree : trueDiv off total < 3 / 4 ↔ 4 * off < 3 * total :=
    trueDiv_lt_iff (b := 3 / 4 - 1 / 2 ^ 53) (by decide +kernel) (by decide +kernel) (by norm_num)
      (by norm_num) (by norm_num) hpos hsmall
  simp only [factor, quarterFactor, hone, htwo, hthree]
  split_ifs <;> omega

/-- A larger file is where it does: the offset is below the first quarter, and two blocks are
asked for. -/
example : factor (2 ^ 53) (2 ^ 55 + 1) = 2 ∧ quarterFactor (2 ^ 53) (2 ^ 55 + 1) = 1 := by
  decide +kernel

/-- There is no factor between one and two. -/
theorem two_le_factor (h : factor off total ≠ 1) : 2 ≤ factor off total := by
  have hpos := factor_pos off total
  omega

theorem dvd_autoSize (total block off : ℕ) : block ∣ autoSize total block off := by
  unfold autoSize
  split
  · exact Nat.dvd_mul_left block _
  · exact Nat.dvd_refl block

theorem autoSize_mono (hfit : 8 * block ≤ bufferLimit ∨ bufferLimit < 2 * block) {off' : ℕ}
    (h : off ≤ off') : autoSize total block off ≤ autoSize total block off' := by
  rcases hfit with hfit | hfit
  · have hle : ∀ o, factor o total * block ≤ bufferLimit := fun o =>
      Nat.le_trans (Nat.mul_le_mul_right block (factor_le o total)) hfit
    rw [autoSize, autoSize, if_pos (hle off), if_pos (hle off')]
    exact Nat.mul_le_mul_right block (factor_mono h)
  · have hone : ∀ o, autoSize total block o = block := by
      intro o
      unfold autoSize
      by_cases hf : factor o total = 1
      · rw [hf, Nat.one_mul, ite_self]
      · have hlt := Nat.lt_of_lt_of_le hfit (Nat.mul_le_mul_right block (two_le_factor hf))
        rw [if_neg (Nat.not_le.mpr hlt)]
    rw [hone, hone]

/-! ## The answers -/

theorem adaptiveBufferSize_eq (h : off < total) (calls : ℕ) :
    adaptiveBufferSize calls off total block = .ok ((factor off total * block : ℕ) : ℤ) := by
  have htotal : total ≠ 0 := by omega
  simp only [adaptiveBufferSize, if_neg htotal, factor]
  split_ifs <;> simp [Int.mul_comm]

/-- Answers for blocks of at most 64 MiB go through `c_uint` unchanged. -/
theorem toNat_adaptiveSize (h : off < total) (hblock : block ≤ bufferLimit) :
    (adaptiveSize off total block).toNat = factor off total * block := by
  have hlt : factor off total * block < 2 ^ 32 :=
    Nat.lt_of_le_of_lt (Nat.mul_le_mul (factor_le off total) hblock) (by decide)
  simp only [adaptiveSize, callbackWrapper, adaptiveBufferSize_eq h]
  rw [UInt32.ofInt, UInt32.toNat_ofNat']
  omega

theorem capacity_le (f : PureSize) (total block : ℕ) : capacity f total block ≤ bufferLimit :=
  Nat.min_le_left _ _

/-- What is asked for at a multiple of the block size has been seen by the probing pass. -/
theorem le_capacity (hpos : 0 < block) (hblock : block ≤ bufferLimit) (h : off < total)
    (hdvd : block ∣ off) (hfit : factor off total * block ≤ bufferLimit) :
    factor off total * block ≤ capacity adaptiveSize total block := by
  have hmem : factor off total * block ∈ (probeOffsets total block).map fun o =>
      (adaptiveSize o total block).toNat :=
    List.mem_map.mpr ⟨off, (mem_probeOffsets hpos).mpr ⟨h, hdvd⟩, toNat_adaptiveSize h hblock⟩
  have hle := List.le_max_of_le' 0 hmem (Nat.le_refl _)
  exact Nat.le_min.mpr ⟨hfit, Nat.le_trans hle (Nat.le_max_right _ _)⟩

/-! ## The chunks -/

section Chunks

variable {z : Sizing}

/-- The size of a chunk at a multiple of the block size. -/
theorem wantAt_eq (hcb : z.bufferSizeCb = some (pureCb adaptiveSize)) (hpos : 0 < z.blockSize)
    (hblock : z.blockSize ≤ bufferLimit) (h : off < z.total) (hdvd : z.blockSize ∣ off)
    (calls : ℕ) : z.wantAt off calls = autoSize z.total z.blockSize off := by
  have hcap := Sizing.maxBufferSize_of_pure hcb hblock
  have hanswer : z.answer off calls = factor off z.total * z.blockSize := by
    rw [← toNat_adaptiveSize h hblock]
    simp only [Sizing.answer, hcb, pureCb]
  have hne : 0 < factor off z.total * z.blockSize := Nat.mul_pos (factor_pos _ _) hpos
  rw [Sizing.wantAt_of_some hcb, hanswer, hcap, autoSize]
  by_cases hfit : factor off z.total * z.blockSize ≤ bufferLimit
  · rw [if_pos ⟨hne, le_capacity hpos hblock h hdvd hfit⟩, if_pos hfit]
  · have hcut := capacity_le adaptiveSize z.total z.blockSize
    rw [if_neg (fun hboth => hfit (Nat.le_trans hboth.2 hcut)), if_neg hfit]

theorem want_eq (hcb : z.bufferSizeCb = some (pureCb adaptiveSize)) (hpos : 0 < z.blockSize)
    (hblock : z.blockSize ≤ bufferLimit) (h : off < z.total) (hdvd : z.blockSize ∣ off)
    (calls : ℕ) :
    z.want off calls = min (autoSize z.total z.blockSize off) (z.total - off) := by
  rw [Sizing.want, wantAt_eq hcb hpos hblock h hdvd calls]
  split <;> omega

/-- A chunk that does not reach the end is a whole number of blocks, so the next one starts at
a multiple of the block size again. -/
theorem dvd_offset (hcb : z.bufferSizeCb = some (pureCb adaptiveSize)) (hpos : 0 < z.blockSize)
    (hblock : z.blockSize ≤ bufferLimit) (k : ℕ) (hk : z.offset k < z.total) :
    z.blockSize ∣ z.offset k := by
  induction k with
  | zero => exact Nat.dvd_zero _
  | succ k ih =>
    have hlt : z.offset k < z.total := by
      have hmono := Sizing.offset_mono (z := z) (Nat.le_add_right k 1)
      omega
    have hlen : z.chunkLen k = min (autoSize z.total z.blockSize (z.offset k))
        (z.total - z.offset k) := want_eq hcb hpos hblock hlt (ih hlt) _
    rw [Sizing.offset_succ] at hk ⊢
    have hfull : z.chunkLen k = autoSize z.total z.blockSize (z.offset k) := by omega
    rw [hfull]
    exact Nat.dvd_add (ih hlt) (dvd_autoSize _ _ _)

theorem chunkLen_eq (hcb : z.bufferSizeCb = some (pureCb adaptiveSize)) (hpos : 0 < z.blockSize)
    (hblock : z.blockSize ≤ bufferLimit) {k : ℕ} (hk : z.offset k < z.total) :
    z.chunkLen k = min (autoSize z.total z.blockSize (z.offset k)) (z.total - z.offset k) :=
  want_eq hcb hpos hblock hk (dvd_offset hcb hpos hblock k hk) _

theorem Adapted.of_along {op : Opcode} {nextOff : ℕ} {log : List Ev}
    (hcb : z.bufferSizeCb = some (pureCb adaptiveSize)) (hpos : 0 < z.blockSize)
    (hblock : z.blockSize ≤ bufferLimit) (h : Along z op nextOff log) :
    Adapted z.total z.blockSize op log := by
  have hlen : ∀ q, Ev.prep q ∈ log → q.opcode = op →
      q.len = min (autoSize z.total z.blockSize q.off) (z.total - q.off) := by
    intro q hq hop
    obtain ⟨k, hk, hoff, hchunk⟩ := h.issued q (mem_prepped.mpr hq) hop
    rw [hchunk, hoff, chunkLen_eq hcb hpos hblock hk]
  have haligned : ∀ q, Ev.prep q ∈ log → q.opcode = op →
      q.off < z.total ∧ z.blockSize ∣ q.off := by
    intro q hq hop
    obtain ⟨k, hk, hoff, -⟩ := h.issued q (mem_prepped.mpr hq) hop
    rw [hoff]
    exact ⟨hk, dvd_offset hcb hpos hblock k hk⟩
  refine ⟨haligned, hlen, ?_⟩
  intro hfit p hp hpop q hq hqop hle
  have hmono := @autoSize_mono z.total _ _ hfit _ hle
  have hplen := hlen p hp hpop
  have hqlen := hlen q hq hqop
  have hqoff := (haligned q hq hqop).1
  omega

end Chunks

/-! ## The runs -/

theorem copy_adapted {cfg : CopyPath.Config} {s : CopyPath.State}
    (hcb : cfg.bufferSizeCb = some (pureCb adaptiveSize)) (hpos : 0 < cfg.blockSize)
    (hblock : cfg.blockSize ≤ bufferLimit)
    (h : Reach (CopyPath.step cfg) AnyStep (CopyPath.start cfg) s) :
    Adapted cfg.fileSize cfg.blockSize .read s.log := by
  have hwalks : CopyPath.Walks cfg s := h.invariant (along_nil cfg.sizing .read)
    fun _ _ _ hs _ ht => hs.step hcb ht
  exact Adapted.of_along (z := cfg.sizing) hcb hpos hblock hwalks

theorem newfile_adapted {cfg : WriteNewfile.Config} {s : WriteNewfile.State}
    (hcb : cfg.bufferSizeCb = some (pureCb adaptiveSize)) (hpos : 0 < cfg.blockSize)
    (hblock : cfg.blockSize ≤ bufferLimit)
    (h : Reach (WriteNewfile.step cfg) AnyStep (WriteNewfile.start cfg) s) :
    Adapted cfg.totalBytes cfg.blockSize .write s.log := by
  have hwalks : WriteNewfile.Walks cfg s := h.invariant (along_nil cfg.sizing .write)
    fun _ _ _ hs _ ht => hs.step hcb ht
  exact Adapted.of_along (z := cfg.sizing) hcb hpos hblock hwalks

/-- A block size of at most 64 MiB goes through `c_uint` unchanged. -/
theorem cUint_of_le {blockSize : ℤ} (hpos : 0 < blockSize) (hblock : blockSize ≤ bufferLimit) :
    cUint blockSize = blockSize.toNat := by
  have hlimit : (bufferLimit : ℤ) < 2 ^ 32 := by decide
  unfold cUint
  omega

section Auto

variable {qd blockSize : ℤ} {fsync dsync : Bool} {syncPolicy : String}
  {progressCb : Option PyProgressCb}

theorem copy_auto {w : CopyWorld} {cfg : CopyPath.Config}
    (h : copy w "auto" qd blockSize fsync syncPolicy none progressCb = .ok cfg) :
    cfg.src = w.src ∧ cfg.blockSize = cUint blockSize ∧
      cfg.bufferSizeCb = some (pureCb adaptiveSize) := by
  unfold copy at h
  obtain ⟨m, hmode, h⟩ := exists_of_bind_eq_ok h
  obtain ⟨policy, -, h⟩ := exists_of_bind_eq_ok h
  rw [validateMode_eq_auto.mpr rfl] at hmode
  cases Except.ok.inj hmode
  cases Except.ok.inj h
  exact ⟨rfl, rfl, rfl⟩

theorem write_auto {w : NewfileWorld} {totalMb : ℤ} {cfg : WriteNewfile.Config}
    (h : write w totalMb "auto" qd blockSize fsync dsync syncPolicy none progressCb = .ok cfg) :
    cfg.blockSize = cUint blockSize ∧ cfg.bufferSizeCb = some (pureCb adaptiveSize) := by
  unfold write at h
  obtain ⟨m, hmode, h⟩ := exists_of_bind_eq_ok h
  obtain ⟨policy, -, h⟩ := exists_of_bind_eq_ok h
  rw [validateMode_eq_auto.mpr rfl] at hmode
  cases Except.ok.inj hmode
  cases Except.ok.inj h
  exact ⟨rfl, rfl⟩

end Auto

/-- **The chunks of mode `"auto"`.**  In every run of `copy` and of `write` without a size
callback, whatever is completed in whatever order, the chunk at an offset is as long as the
quotient of offset and total asks for, or a single block where that is more than 64 MiB, and no
longer than what is left; all chunks start at multiples of the block size.  Up to two pebibytes
the quotient goes by the quarters of the file. -/
theorem auto_chunks (qd blockSize : ℤ) (syncPolicy : String) (progressCb : Option PyProgressCb)
    (hpos : 0 < blockSize) (hblock : blockSize ≤ bufferLimit) :
    (∀ (w : CopyWorld) (fsync : Bool) (cfg : CopyPath.Config) (s : CopyPath.State),
      copy w "auto" qd blockSize fsync syncPolicy none progressCb = .ok cfg →
      Reach (CopyPath.step cfg) AnyStep (CopyPath.start cfg) s →
      Adapted w.src.length blockSize.toNat .read s.log) ∧
    (∀ (w : NewfileWorld) (totalMb : ℤ) (fsync dsync : Bool) (cfg : WriteNewfile.Config)
      (s : WriteNewfile.State),
      write w totalMb "auto" qd blockSize fsync dsync syncPolicy none progressCb = .ok cfg →
      Reach (WriteNewfile.step cfg) AnyStep (WriteNewfile.start cfg) s →
      Adapted cfg.totalBytes blockSize.toNat .write s.log) ∧
    ∀ off total : ℕ, off < total → total ≤ 2 ^ 51 →
      factor off total = quarterFactor off total := by
  have hcast := cUint_of_le hpos hblock
  refine ⟨?_, ?_, fun off total => factor_eq_quarterFactor⟩
  · intro w fsync cfg s hcopy h
    obtain ⟨hsrc, hsize, hcb⟩ := copy_auto hcopy
    rw [hcast] at hsize
    have hadapted := copy_adapted hcb (by omega) (by omega) h
    rwa [CopyPath.Config.fileSize, hsrc, hsize] at hadapted
  · intro w totalMb fsync dsync cfg s hwrite h
    obtain ⟨hsize, hcb⟩ := write_auto hwrite
    rw [hcast] at hsize
    have hadapted := newfile_adapted hcb (by omega) (by omega) h
    rwa [hsize] at hadapted

/-- Eight bytes and a ring with room for one request. -/
def eightBytes : CopyWorld := ⟨[0, 1, 2, 3, 4, 5, 6, 7], 1, CopyPath.Setup.ok⟩

/-- `copy(src, dst, qd=1, block_size=1)`, up to the point where all of it is read. -/
def inChunks : List CopyPath.Event :=
  [.prime 1, .complete 0 1, .iterate 0 1, .complete 0 1, .iterate 0 1, .complete 0 1, .iterate 0 1,
    .complete 0 1, .iterate 0 1, .complete 0 2, .iterate 0 1, .complete 0 2, .iterate 0 1]

theorem exec_inChunks : ((exec
    (CopyPath.step (copyPathDynamic eightBytes 1 1 (some adaptiveBufferSize) false none))
    (CopyPath.start (copyPathDynamic eightBytes 1 1 (some adaptiveBufferSize) false none))
    inChunks).map fun s =>
      ((prepped s.log).filter fun q => q.opcode = .read).map (fun q => q.len)) =
    some [1, 1, 2, 4] := by
  decide +kernel

/-- They are read in chunks of one, one, two and four bytes. -/
theorem auto_chunks_eight : ∃ s, exec
    (CopyPath.step (copyPathDynamic eightBytes 1 1 (some adaptiveBufferSize) false none))
    (CopyPath.start (copyPathDynamic eightBytes 1 1 (some adaptiveBufferSize) false none))
    inChunks = some s ∧
    ((prepped s.log).filter fun q => q.opcode = .read).map (fun q => q.len) = [1, 1, 2, 4] ∧
    Adapted 8 1 .read s.log := by
  obtain ⟨s, hs, hlens⟩ := Option.map_eq_some_iff.mp exec_inChunks
  exact ⟨s, hs, hlens, (auto_chunks 1 1 "default" none (by decide) (by decide)).1 eightBytes false _
    s rfl (reach_anyStep_of_exec hs)⟩

end Easy
end Pyuring
