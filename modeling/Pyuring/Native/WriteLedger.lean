import Pyuring.Lib.WrittenFile
import Pyuring.Native.Request

/-!
# The books of the writing pipelines

What a trace says about the files of a pipeline that only writes.  `Balanced` balances the
books: every request that was prepared is queued, outstanding or done, and none twice.  Once
the ring is idle, the requests done are the requests prepared, in another order.  A `Ledger`
is balanced, and all its writes completed in full; where its requests tile a range of a file,
the file is settled: `Ledger.settled`.
-/

namespace Pyuring
namespace Native

open CompletionRing

/-- The requests completed along a trace with their results, the newest first. -/
def dones : List Ev → List (Sqe × ℤ)
  | [] => []
  | .prep _ :: log => dones log
  | .done q res :: log => (q, res) :: dones log
  | .progress _ _ :: log => dones log
  | .fsync _ :: log => dones log

/-- The completed write wrote position `p` of `file`. -/
def Writes (file p : ℕ) (x : Sqe × ℤ) : Prop :=
  x.1.file = file ∧ x.1.off ≤ p ∧ p < x.1.off + x.2.toNat

instance (file p : ℕ) : DecidablePred (Writes file p) := fun _ =>
  inferInstanceAs (Decidable (_ ∧ _))

/-- The blocks that `file` was written with, the newest first; `pattern` says what is in the
buffers. -/
def blocks (pattern : ℕ → ℕ → List UInt8) (file : ℕ) (log : List Ev) : List (ℕ × List UInt8) :=
  ((dones log).filter fun x => x.1.file = file).map fun x => (x.1.off, pattern x.1.buf x.2.toNat)

/-- The pieces of `file` that were asked for, in order. -/
def fileSpans (file : ℕ) (log : List Ev) : List Span :=
  ((prepped log).filter fun q => q.file = file).map fun q => ⟨q.off, q.len, q.len⟩

/-- A sum over requests, taken file by file. -/
theorem sum_by_file {α : Type} (key weight : α → ℕ) {n : ℕ} {xs : List α}
    (h : ∀ x ∈ xs, key x < n) : (xs.map weight).sum =
      ∑ file ∈ Finset.range n, ((xs.filter fun x => key x = file).map weight).sum := by
  induction xs with
  | nil => simp
  | cons x xs ih =>
    have hx := h x List.mem_cons_self
    have hone : ∀ file, (((x :: xs).filter fun x => key x = file).map weight).sum =
        (if key x = file then weight x else 0) +
          ((xs.filter fun x => key x = file).map weight).sum := by
      intro file
      rw [List.filter_cons]
      by_cases hfile : key x = file
      · simp [hfile]
      · simp [hfile]
    simp only [hone, Finset.sum_add_distrib, Finset.sum_ite_eq, Finset.mem_range, hx, if_true,
      List.map_cons, List.sum_cons, ih fun x' hx' => h x' (List.mem_cons_of_mem x hx')]

/-- The requests prepared are those of the files, taken together. -/
theorem length_prepped {n : ℕ} {log : List Ev} (h : ∀ q ∈ prepped log, q.file < n) :
    (prepped log).length = ∑ file ∈ Finset.range n, (fileSpans file log).length := by
  have hsum := sum_by_file Sqe.file (fun _ => 1) h
  simp only [List.map_const', List.sum_replicate, smul_eq_mul, Nat.mul_one] at hsum
  simp only [hsum, fileSpans, List.length_map]

/-- Every request prepared is queued, outstanding or done, and none moved more than it asked
for. -/
structure Balanced (log : List Ev) (ring : CompletionRing Sqe) : Prop where
  perm : (prepped log : Multiset Sqe) = (dones log).map Prod.fst + ring.queued + ring.outstanding
  le : ∀ x ∈ dones log, x.2 ≤ x.1.len

/-- Every request prepared is queued, outstanding or done; those that are done were done in
full. -/
structure Ledger (log : List Ev) (ring : CompletionRing Sqe) : Prop where
  perm : (prepped log : Multiset Sqe) = (dones log).map Prod.fst + ring.queued + ring.outstanding
  full : ∀ x ∈ dones log, x.2 = x.1.len

variable {log new : List Ev} {ring ring' : CompletionRing Sqe}

theorem ReportsOnly.dones_eq {old new : List Ev} (h : ReportsOnly old new) :
    dones new = dones old := by
  obtain ⟨l, rfl, hl⟩ := h
  induction l with
  | nil => rfl
  | cons e l ih =>
    obtain ⟨n, total, rfl⟩ := hl e List.mem_cons_self
    exact ih fun e he => hl e (List.mem_cons_of_mem _ he)

/-! ## What a completion adds

The results of the writes are counted when they are reaped. -/

theorem counted_done {n : ℕ} {cs : List (Sqe × ℤ)} {log : List Ev}
    (h : n + (cs.map fun x => x.2.toNat).sum = ((dones log).map fun x => x.2.toNat).sum) (q : Sqe)
    (res : ℤ) : n + ((cs ++ [(q, res)]).map fun x => x.2.toNat).sum =
      ((dones (.done q res :: log)).map fun x => x.2.toNat).sum := by
  simp only [dones, List.map_append, List.map_cons, List.map_nil, List.sum_append, List.sum_cons,
    List.sum_nil, ← h]
  omega

theorem counted_reap (k n : ℕ) (cs : List (Sqe × ℤ)) :
    n + ((cs.take k).map fun x => x.2.toNat).sum + ((cs.drop k).map fun x => x.2.toNat).sum =
      n + (cs.map fun x => x.2.toNat).sum := by
  rw [Nat.add_assoc, ← List.sum_append, ← List.map_append, List.take_append_drop]

/-- The file that a completed write went to gets one more block. -/
theorem ofWrites_done {pattern : ℕ → ℕ → List UInt8} {files : ℕ → SparseFile UInt8} {log : List Ev}
    (h : ∀ f, files f = SparseFile.ofWrites (blocks pattern f log)) (q : Sqe) (res : ℤ) (f : ℕ) :
    Function.update files q.file ((files q.file).write q.off (pattern q.buf res.toNat)) f =
      SparseFile.ofWrites (blocks pattern f (.done q res :: log)) := by
  simp only [blocks, dones, List.filter_cons]
  by_cases hf : f = q.file
  · subst hf
    simp only [Function.update_self, decide_true, if_true, List.map_cons, SparseFile.ofWrites, h]
    rfl
  · simp only [Function.update_of_ne hf, decide_eq_true_iff, if_neg (Ne.symm hf), h]
    rfl

/-! ## Balanced books -/

theorem balanced_nil : Balanced [] .empty := ⟨rfl, by simp [dones]⟩

/-- Reaping does not touch the books. -/
theorem Balanced.congr (h : Balanced log ring) (hprep : prepped new = prepped log)
    (hdone : dones new = dones log) (hqueued : ring'.queued = ring.queued)
    (hout : ring'.outstanding = ring.outstanding) : Balanced new ring' where
  perm := by rw [hprep, hdone, hqueued, hout, h.perm]
  le := by rw [hdone]; exact h.le

theorem Balanced.push (h : Balanced log ring) {room : ℕ} {q : Sqe}
    (hq : ring.push room q = some ring') : Balanced (.prep q :: log) ring' where
  perm := by
    obtain ⟨-, rfl⟩ := push_eq_some.mp hq
    simp only [prepped, dones, ← Multiset.coe_add, Multiset.coe_singleton, h.perm]
    ac_rfl
  le := h.le

theorem Balanced.submit (h : Balanced log ring) : Balanced log ring.submit where
  perm := by
    simp only [queued_submit, outstanding_submit, ← Multiset.coe_add, Multiset.coe_nil, add_zero,
      h.perm]
    ac_rfl
  le := h.le

theorem Balanced.complete (h : Balanced log ring) {i : ℕ} {res : ℤ} {q : Sqe}
    (hq : ring.complete i res = some (q, ring')) (hres : res ≤ q.len) :
    Balanced (.done q res :: log) ring' where
  perm := by
    obtain ⟨hget, rfl⟩ := complete_eq_some.mp hq
    simp only [prepped, dones, List.map_cons, ← Multiset.cons_coe, h.perm, ← cons_eraseIdx hget,
      ← Multiset.singleton_add]
    ac_rfl
  le := by
    intro x hx
    rcases List.mem_cons.mp hx with rfl | hx
    · exact hres
    · exact h.le x hx

theorem Balanced.mem_prepped (h : Balanced log ring) {x : Sqe × ℤ} (hx : x ∈ dones log) :
    x.1 ∈ prepped log := by
  rw [← Multiset.mem_coe, h.perm]
  exact Multiset.mem_add.mpr (Or.inl (Multiset.mem_add.mpr (Or.inl (List.mem_map_of_mem hx))))

/-- No request is completed twice. -/
theorem Balanced.length_le (h : Balanced log ring) : (dones log).length ≤ (prepped log).length := by
  have hcard := congrArg Multiset.card h.perm
  simp only [Multiset.card_add, Multiset.coe_card, List.length_map] at hcard
  omega

/-- What was moved was asked for. -/
theorem Balanced.sum_le (h : Balanced log ring) :
    ((dones log).map fun x => x.2.toNat).sum ≤ ((prepped log).map Sqe.len).sum := by
  have hle : ((dones log).map fun x => x.2.toNat).sum ≤ (((dones log).map Prod.fst).map
      Sqe.len).sum := by
    rw [List.map_map]
    refine List.sum_le_sum ?_
    intro x hx
    have := h.le x hx
    simp only [Function.comp_apply]
    omega
  have hsum := congrArg (fun m => (m.map Sqe.len).sum) h.perm
  simp only [Multiset.map_add, Multiset.sum_add, Multiset.map_coe, Multiset.sum_coe] at hsum
  omega

/-- Nothing is left to be done. -/
theorem Balanced.perm_of_idle (h : Balanced log ring) (hidle : ring.Idle) :
    ((dones log).map Prod.fst).Perm (prepped log) := by
  have hperm := h.perm
  rw [hidle.1, hidle.2.1, Multiset.coe_nil, add_zero, add_zero] at hperm
  exact (Multiset.coe_eq_coe.mp hperm).symm

/-! ## Writes in full -/

theorem ledger_nil : Ledger [] .empty := ⟨rfl, by simp [dones]⟩

theorem Ledger.balanced (h : Ledger log ring) : Balanced log ring where
  perm := h.perm
  le x hx := Int.le_of_eq (h.full x hx)

theorem Ledger.congr (h : Ledger log ring) (hprep : prepped new = prepped log)
    (hdone : dones new = dones log) (hqueued : ring'.queued = ring.queued)
    (hout : ring'.outstanding = ring.outstanding) : Ledger new ring' where
  perm := (h.balanced.congr hprep hdone hqueued hout).perm
  full := by rw [hdone]; exact h.full

theorem Ledger.push (h : Ledger log ring) {room : ℕ} {q : Sqe} (hq : ring.push room q = some ring') :
    Ledger (.prep q :: log) ring' where
  perm := (h.balanced.push hq).perm
  full := h.full

theorem Ledger.submit (h : Ledger log ring) : Ledger log ring.submit where
  perm := h.balanced.submit.perm
  full := h.full

theorem Ledger.complete (h : Ledger log ring) {i : ℕ} {res : ℤ} {q : Sqe}
    (hq : ring.complete i res = some (q, ring')) (hres : res = q.len) :
    Ledger (.done q res :: log) ring' where
  perm := (h.balanced.complete hq (Int.le_of_eq hres)).perm
  full := by
    intro x hx
    rcases List.mem_cons.mp hx with rfl | hx
    · exact hres
    · exact h.full x hx

theorem Ledger.perm_of_idle (h : Ledger log ring) (hidle : ring.Idle) :
    ((dones log).map Prod.fst).Perm (prepped log) :=
  h.balanced.perm_of_idle hidle

/-- The bytes done are the bytes asked for. -/
theorem Ledger.sum_of_idle (h : Ledger log ring) (hidle : ring.Idle) :
    ((dones log).map fun x => x.2.toNat).sum = ((prepped log).map Sqe.len).sum := by
  have hlens : (dones log).map (fun x => x.2.toNat) = (dones log).map (Sqe.len ∘ Prod.fst) :=
    List.map_congr_left fun x hx => by rw [h.full x hx]; rfl
  rw [hlens, ← List.map_map, ((h.perm_of_idle hidle).map Sqe.len).sum_eq]

section Settled

variable {pattern : ℕ → ℕ → List UInt8} (hpattern : ∀ slot n, (pattern slot n).length = n)

include hpattern

theorem Ledger.spans_perm (h : Ledger log ring) (hidle : ring.Idle) (file : ℕ) :
    ((blocks pattern file log).map SparseFile.spanOf).Perm (fileSpans file log) := by
  have hperm := ((h.perm_of_idle hidle).filter fun q => decide (q.file = file)).map
    fun q => (⟨q.off, q.len, q.len⟩ : Span)
  refine (List.Perm.of_eq ?_).trans hperm
  rw [List.filter_map, List.map_map, blocks, List.map_map]
  refine List.map_congr_left ?_
  intro x hx
  have hlen := h.full x (List.mem_filter.mp hx).1
  simp [SparseFile.spanOf, hpattern, hlen]

/-- **A file is settled** when its pieces tile a range and nothing is left to be done: it is
that range, every position of it was written exactly once and no other was, and each piece
is there as it was in its buffer. -/
theorem Ledger.settled (h : Ledger log ring) (hidle : ring.Idle) {file b : ℕ}
    (htiles : Tiles 0 (fileSpans file log) b) :
    (SparseFile.ofWrites (blocks pattern file log)).size = b ∧
      (∀ p, (dones log).countP (fun x => decide (Writes file p x)) = if p < b then 1 else 0) ∧
      (∀ p, b ≤ p → (SparseFile.ofWrites (blocks pattern file log)).byte p = none) ∧
      ∀ q ∈ prepped log, q.file = file → ∀ k < q.len,
        (SparseFile.ofWrites (blocks pattern file log)).byte (q.off + k) =
          (pattern q.buf q.len)[k]? := by
  have hperm := h.spans_perm hpattern hidle file
  refine ⟨SparseFile.size_ofWrites htiles hperm, ?_,
    fun p hp => SparseFile.byte_ofWrites_of_le htiles hperm hp, ?_⟩
  · intro p
    rw [← SparseFile.countP_spanOf htiles hperm p, blocks, List.countP_map, List.countP_filter]
    refine List.countP_congr ?_
    intro x hx
    simp only [SparseFile.spanOf, Function.comp_apply, Bool.and_eq_true, decide_eq_true_iff,
      Span.Covers, hpattern]
    exact and_comm
  · intro q hq hfile k hk
    obtain ⟨x, hx, rfl⟩ := List.mem_map.mp ((h.perm_of_idle hidle).mem_iff.mpr hq)
    have hlen : x.2.toNat = x.1.len := by rw [h.full x hx]; rfl
    have hmem : (x.1.off, pattern x.1.buf x.2.toNat) ∈ blocks pattern file log :=
      List.mem_map.mpr ⟨x, List.mem_filter.mpr ⟨hx, by simpa using hfile⟩, rfl⟩
    have hbyte := SparseFile.byte_ofWrites_of_mem (SparseFile.pairwise_apart htiles hperm) hmem
      (k := k) (by rw [hpattern, hlen]; exact hk)
    rwa [hlen] at hbyte

end Settled

end Native
end Pyuring
