import Pyuring.Native.WriteNewfileEnds
import Pyuring.Native.WriteNewfileExact
import Pyuring.Native.WriteManyfilesEnds

/-!
# Holes in the files written

Both writers reserve their chunks by the length asked for and count what was written.  A
write that comes back short is not noticed: the chunks after it keep their offsets, the loop
ends when all chunks were asked for, and the sum of the results is returned.

`writers_whole_iff` says when that is right.  A file has no hole exactly when, of its writes
in the order of their offsets, nothing was written after one that came back short; and then
the sum of the results is the sum of the sizes.

Everything is read off the trace.  Nothing is assumed of the results but that no write moves
more than it was asked for.
-/

namespace Pyuring
namespace Native

open CompletionRing Trace

/-- After a write of `file` that came back short, no write of it further on moved anything. -/
def ShortLast (file : ℕ) (log : List Ev) : Prop :=
  ∀ x ∈ dones log, ∀ y ∈ dones log, x.1.file = file → y.1.file = file → x.1.off < y.1.off →
    x.2 < x.1.len → y.2 ≤ 0

/-- The bytes written to `file`. -/
def written (file : ℕ) (log : List Ev) : ℕ :=
  (((dones log).filter fun x => x.1.file = file).map fun x => x.2.toNat).sum

/-- The bytes written are those of the files, taken together. -/
theorem sum_written {n : ℕ} {log : List Ev} (h : ∀ x ∈ dones log, x.1.file < n) :
    ((dones log).map fun x => x.2.toNat).sum = ∑ file ∈ Finset.range n, written file log :=
  sum_by_file (fun x : Sqe × ℤ => x.1.file) (fun x => x.2.toNat) h

section Pieces

variable {log : List Ev} {ring : CompletionRing Sqe}

/-- What was moved of the pieces of a file, in order, once nothing is left to be done. -/
theorem Balanced.exists_pieces (h : Balanced log ring) (hidle : ring.Idle) (file : ℕ) :
    ∃ cs : List Span, Span.asked cs = Span.asked (fileSpans file log) ∧
      (cs.Perm (((dones log).filter fun x => x.1.file = file).map
        fun x => ⟨x.1.off, x.1.len, x.2.toNat⟩)) := by
  have hperm := (h.perm_of_idle hidle).filter fun q => decide (q.file = file)
  rw [List.filter_map] at hperm
  -- the writes done, put in the order in which they were prepared
  have hcomp := List.eq_map_comp_perm (Prod.fst : Sqe × ℤ → Sqe)
  obtain ⟨xs, hxs, hdone⟩ := (congrFun (congrFun hcomp _) _).mpr hperm.symm
  refine ⟨xs.map fun x => ⟨x.1.off, x.1.len, x.2.toNat⟩, ?_, hdone.map _⟩
  simp only [Span.asked, fileSpans, List.map_map] at hxs ⊢
  rw [hxs, List.map_map]
  rfl

variable {pattern : ℕ → ℕ → List UInt8} (hpattern : ∀ slot n, (pattern slot n).length = n)

include hpattern

/-- **When a file has no hole**, and how long it is then. -/
theorem Balanced.whole_iff (h : Balanced log ring) (hidle : ring.Idle) {file b : ℕ}
    (htiles : Tiles 0 (fileSpans file log) b) :
    ((SparseFile.ofWrites (blocks pattern file log)).Whole ↔ ShortLast file log) ∧
      (ShortLast file log →
        (SparseFile.ofWrites (blocks pattern file log)).size = written file log) := by
  obtain ⟨cs, hasked, hperm⟩ := h.exists_pieces hidle file
  have htiles := htiles.of_asked hasked
  have hmem : ∀ c, c ∈ cs ↔ ∃ x ∈ dones log, x.1.file = file ∧
      (⟨x.1.off, x.1.len, x.2.toNat⟩ : Span) = c := by
    intro c
    rw [hperm.mem_iff]
    simp [and_assoc]
  have hle : ∀ c ∈ cs, c.moved ≤ c.len := by
    intro c hc
    obtain ⟨x, hx, -, rfl⟩ := (hmem c).mp hc
    have := h.le x hx
    simp only
    omega
  have hblocks : ((blocks pattern file log).map fun w => (w.1, w.2.length)).Perm
      (cs.map fun c => (c.off, c.moved)) := by
    refine (List.Perm.of_eq ?_).trans (hperm.map fun c => (c.off, c.moved)).symm
    simp [blocks, List.map_map, Function.comp_def, hpattern]
  have hshort : Span.ShortOnlyAtTail cs ↔ ShortLast file log := by
    rw [htiles.shortOnlyAtTail_iff]
    constructor
    · intro hall x hx y hy hxf hyf hlt hxs
      have hpos := (htiles.bounds ((hmem _).mpr ⟨x, hx, hxf, rfl⟩)).2.2
      have hzero := hall _ ((hmem _).mpr ⟨x, hx, hxf, rfl⟩) _ ((hmem _).mpr ⟨y, hy, hyf, rfl⟩) hlt
      simp only at hpos hzero
      omega
    · intro hall c hc d hd hlt hcs
      obtain ⟨x, hx, hxf, rfl⟩ := (hmem c).mp hc
      obtain ⟨y, hy, hyf, rfl⟩ := (hmem d).mp hd
      simp only at hlt hcs ⊢
      have := hall x hx y hy hxf hyf hlt (by omega)
      omega
  refine ⟨(SparseFile.whole_iff htiles hle hblocks).trans hshort, ?_⟩
  intro hlast
  rw [SparseFile.size_eq_total htiles hle hblocks (hshort.mpr hlast), Span.total,
    (hperm.map Span.moved).sum_eq, written, List.map_map]
  rfl

end Pieces

namespace WriteNewfile

variable {cfg : Config} {s : State}

/-- The chunks prepared tile the file as far as they go. -/
theorem Sound.tiles (h : Sound cfg s) (hblock : 0 < cfg.blockSize) :
    ∃ b, Tiles 0 (fileSpans dfd s.log) b := by
  obtain ⟨k, hk⟩ := h.chunked
  have htiles := tiles_chunks (z := cfg.sizing) hblock hk.offset_lt
  rw [← hk.prepped, List.map_map] at htiles
  have hfiles : (Native.prepped s.log).filter (fun q => q.file = dfd) = Native.prepped s.log :=
    List.filter_eq_self.mpr fun q hq => by simpa using (h.filed.file q hq).2
  rw [fileSpans, hfiles]
  exact ⟨_, htiles⟩

/-- **When a new file has no hole**, of those that a run has returned the length of. -/
theorem whole_iff {P : State → Event → Prop} (hroom : cfg.qd ≤ cfg.sqEntries)
    (h : Reach (step cfg) P (start cfg) s) {n : ℕ} (hret : s.phase = .returned n) :
    (s.dst.Whole ∧ n = s.dst.size) ↔ ShortLast dfd s.log := by
  have hsound := sound_reach hroom h
  have hblock : 0 < cfg.blockSize := by
    rcases entry_cases cfg with ⟨-, -, hblock, -⟩ | ⟨r, hneg, hentry⟩
    · exact hblock
    · have hphase : (start cfg).phase = .returned r := hentry
      rw [h.eq_of_stuck (step_of_returned hphase), hphase, Phase.returned.injEq] at hret
      omega
  obtain ⟨hwritten, hidle⟩ : (n : ℤ) = s.written ∧ s.ring.Idle := by
    have hgood := hsound.good
    simp only [Good, hret] at hgood
    rcases hgood with hneg | ⟨heq, hfin⟩
    · omega
    · exact ⟨heq, hfin.idle⟩
  have hnot : ¬ Failing s := not_failing_of_returned (Int.natCast_nonneg n) hret
  have htally : Tallied s := hsound.tallied.resolve_left hnot
  rw [Tallied, hidle.2.2, List.map_nil, List.sum_nil, Nat.add_zero] at htally
  have hfiles : (dones s.log).filter (fun x => x.1.file = dfd) = dones s.log :=
    List.filter_eq_self.mpr fun x hx => by
      simpa using (hsound.filed.file _ (hsound.filed.balanced.mem_prepped hx)).2
  have hsum : Native.written dfd s.log = s.written := by rw [Native.written, hfiles, htally]
  obtain ⟨b, htiles⟩ := hsound.tiles hblock
  obtain ⟨hwhole, hsize⟩ := hsound.filed.balanced.whole_iff length_pattern hidle htiles
  rw [hsound.filed.dst]
  refine ⟨fun hand => hwhole.mp hand.1, fun hlast => ⟨hwhole.mpr hlast, ?_⟩⟩
  rw [hsize hlast, hsum]
  omega

end WriteNewfile

namespace WriteManyfiles

variable {cfg : Config} {s : State}

/-- **When many files have no hole**, of those that a run has returned the length of. -/
theorem whole_iff {P : State → Event → Prop} (hroom : cfg.qd ≤ cfg.sqEntries)
    (h : Reach (step cfg) P (start cfg) s) {n : ℕ} (hret : s.phase = .returned n) :
    ((∀ f < cfg.nfiles, (s.files f).Whole) ∧
        n = ∑ f ∈ Finset.range cfg.nfiles, (s.files f).size) ↔
      ∀ f < cfg.nfiles, ShortLast f s.log := by
  rcases undisturbed_or_returned hroom with hcfg | ⟨r, hneg, hphase⟩
  swap
  · rw [h.eq_of_stuck (step_of_returned hphase), hphase, Phase.returned.injEq] at hret
    omega
  have hsound := sound_reach hcfg h
  obtain ⟨hwritten, hidle⟩ : (n : ℤ) = s.written ∧ s.ring.Idle := by
    have hgood := hsound.good
    simp only [Good, hret] at hgood
    rcases hgood with hneg | ⟨heq, hfin⟩
    · omega
    · exact ⟨heq, hfin.idle⟩
  have hnot : ¬ Failing s := not_failing_of_returned (Int.natCast_nonneg n) hret
  have halive := hsound.alive.resolve_left hnot
  have hcounted := halive.counted
  rw [hidle.2.2, List.map_nil, List.sum_nil, Nat.add_zero,
    sum_written fun x hx => (halive.plan.write _ (hsound.balanced.mem_prepped hx)).2.2.1]
    at hcounted
  have hfile := fun f => hsound.balanced.whole_iff length_pattern hidle (halive.plan.tiles f)
  simp only [hsound.files]
  refine ⟨fun hand f hf => (hfile f).1.mp (hand.1 f hf),
    fun hlast => ⟨fun f hf => (hfile f).1.mpr (hlast f hf), ?_⟩⟩
  rw [Finset.sum_congr rfl fun f hf => (hfile f).2 (hlast f (Finset.mem_range.mp hf)), ← hcounted]
  omega

end WriteManyfiles

/-- **When the writers leave no hole.**  Whatever the arguments, the callbacks, the order of the
completions and what each write moves: in every run that returns a number of bytes, the files
have no hole and that number is the sum of their sizes exactly when in each file nothing was
written after a write that came back short. -/
theorem writers_whole_iff (newfile : WriteNewfile.Config) (manyfiles : WriteManyfiles.Config)
    (hnewfile : newfile.qd ≤ newfile.sqEntries) (hmanyfiles : manyfiles.qd ≤ manyfiles.sqEntries) :
    (∀ (s : WriteNewfile.State) (n : ℕ),
      Reach (WriteNewfile.step newfile) AnyStep (WriteNewfile.start newfile) s →
      s.phase = .returned n →
      ((s.dst.Whole ∧ n = s.dst.size) ↔ ShortLast WriteNewfile.dfd s.log)) ∧
    ∀ (s : WriteManyfiles.State) (n : ℕ),
      Reach (WriteManyfiles.step manyfiles) AnyStep (WriteManyfiles.start manyfiles) s →
      s.phase = .returned n →
      (((∀ f < manyfiles.nfiles, (s.files f).Whole) ∧
          n = ∑ f ∈ Finset.range manyfiles.nfiles, (s.files f).size) ↔
        ∀ f < manyfiles.nfiles, ShortLast f s.log) :=
  ⟨fun _ _ h hret => WriteNewfile.whole_iff hnewfile h hret,
    fun _ _ h hret => WriteManyfiles.whole_iff hmanyfiles h hret⟩

theorem writers_whole_iff_two :
    (∀ (s : WriteNewfile.State) (n : ℕ),
      Reach (WriteNewfile.step WriteNewfile.twoChunks) AnyStep
        (WriteNewfile.start WriteNewfile.twoChunks) s →
      s.phase = .returned n →
      ((s.dst.Whole ∧ n = s.dst.size) ↔ ShortLast WriteNewfile.dfd s.log)) ∧
    ∀ (s : WriteManyfiles.State) (n : ℕ),
      Reach (WriteManyfiles.step WriteManyfiles.twoFiles) AnyStep
        (WriteManyfiles.start WriteManyfiles.twoFiles) s →
      s.phase = .returned n →
      (((∀ f < WriteManyfiles.twoFiles.nfiles, (s.files f).Whole) ∧
          n = ∑ f ∈ Finset.range WriteManyfiles.twoFiles.nfiles, (s.files f).size) ↔
        ∀ f < WriteManyfiles.twoFiles.nfiles, ShortLast f s.log) :=
  writers_whole_iff WriteNewfile.twoChunks WriteManyfiles.twoFiles (by decide) (by decide)

/-- No write comes back with an error. -/
def NonNegative (_ : WriteNewfile.State) : WriteNewfile.Event → Prop
  | .complete _ res => 0 ≤ res
  | _ => True

/-- Both writes come back with one byte. -/
def oneByteEach : List WriteNewfile.Event :=
  [.fill 2, .complete 0 1, .complete 0 1, .wait 0, .reap, .reap, .finish none, .cleanup]

theorem exec_oneByteEach : ((exec (WriteNewfile.step WriteNewfile.twoChunks)
    (WriteNewfile.start WriteNewfile.twoChunks) oneByteEach).map fun s =>
      (s.phase, s.dst.size, s.dst.byte 1)) = some (.returned 2, 600001, none) := by
  decide

/-- Two writes of one byte each: two is returned, and the file is a hole but for its ends. -/
theorem newfile_has_hole : ¬ ∀ (cfg : WriteNewfile.Config) (s : WriteNewfile.State) (n : ℕ),
    cfg.qd ≤ cfg.sqEntries →
    Reach (WriteNewfile.step cfg) NonNegative (WriteNewfile.start cfg) s →
    s.phase = .returned n → s.dst.Whole ∧ n = s.dst.size := by
  intro hall
  obtain ⟨s, hs, hobs⟩ := Option.map_eq_some_iff.mp exec_oneByteEach
  have hnonneg : Meets (WriteNewfile.step WriteNewfile.twoChunks) NonNegative
      (WriteNewfile.start WriteNewfile.twoChunks) oneByteEach := by
    refine meets_of_forall ?_
    intro s e he
    simp only [oneByteEach, List.mem_cons, List.not_mem_nil, or_false] at he
    rcases he with rfl | rfl | rfl | rfl | rfl | rfl | rfl | rfl <;> simp [NonNegative]
  have hret : s.phase = .returned (2 : ℕ) := congrArg Prod.fst hobs
  have hsize : s.dst.size = 600001 := congrArg (fun x => x.2.1) hobs
  have hbyte : s.dst.byte 1 = none := congrArg (fun x => x.2.2) hobs
  have hwhole := (hall WriteNewfile.twoChunks s 2 (by decide) (reach_of_exec hnonneg hs) hret).1
  exact hwhole 1 (by omega) hbyte

end Native
end Pyuring
