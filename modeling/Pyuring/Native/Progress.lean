import Pyuring.Native.CApi
import Pyuring.Lib.Trace

/-!
# Progress reports

A pipeline reports its progress each time a write of the destination has completed, and
stops when the callback asks for it.  The trace holds the completions and the reports, so
that what a report says can be compared with the completions before it.

`Told` is what a loop keeps that reports every completion it takes off the ring, in the order
in which it takes them: the completions seen, those that wait to be seen, and the count.  It
says nothing of how the loop gets at its completions, one at a time or in batches.
-/

namespace Pyuring
namespace Native

/-- The bytes of the writes completed along a trace, the oldest first. -/
def landed : List Ev → List ℕ
  | [] => []
  | .prep _ :: log => landed log
  | .done q res :: log => match q.opcode with
    | .read => landed log
    | .write => landed log ++ [res.toNat]
  | .progress _ _ :: log => landed log
  | .fsync _ :: log => landed log

/-- The reports made along a trace with their totals, the oldest first. -/
def reports : List Ev → List (ℕ × ℕ)
  | [] => []
  | .prep _ :: log => reports log
  | .done _ _ :: log => reports log
  | .progress n total :: log => reports log ++ [(n, total)]
  | .fsync _ :: log => reports log

/-- Each report is made for one more write than the last one, after that write completed, and
says how many bytes these writes have moved. -/
def Truthful : List Ev → Prop
  | [] => True
  | .prep _ :: log => Truthful log
  | .done _ _ :: log => Truthful log
  | .progress n _ :: log => Truthful log ∧ (reports log).length < (landed log).length ∧
      n = ((landed log).take ((reports log).length + 1)).sum
  | .fsync _ :: log => Truthful log

/-- The callback asks to stop when it is called with report number `n`: it returns true, or it
raises an `Exception`. -/
def Asks (cb : PyProgressCb) (n : ℕ) (r : ℕ × ℕ) : Prop :=
  cb n r.1 r.2 = .ok true ∨ cb n r.1 r.2 = .error .exception

/-- The callback does not ask to stop at any of the reports. -/
def Silent (cb : PyProgressCb) (rs : List (ℕ × ℕ)) : Prop :=
  ∀ n r, rs[n]? = some r → ¬ Asks cb n r

/-- The callback asks to stop at the last of the reports, and not before. -/
def Stopped (cb : PyProgressCb) (rs : List (ℕ × ℕ)) : Prop :=
  ∃ rs' r, rs = rs' ++ [r] ∧ Silent cb rs' ∧ Asks cb rs'.length r

theorem progressWrapper_eq_true {cb : PyProgressCb} {n done total : ℕ} :
    progressWrapper cb n done total = true ↔ Asks cb n (done, total) := by
  unfold progressWrapper Asks
  cases cb n done total with
  | ok stop => cases stop <;> simp
  | error raised => cases raised <;> simp

theorem Silent.snoc {cb : PyProgressCb} {rs : List (ℕ × ℕ)} (h : Silent cb rs) {r : ℕ × ℕ}
    (hr : ¬ Asks cb rs.length r) : Silent cb (rs ++ [r]) := by
  intro n r' hn
  rcases Nat.lt_trichotomy n rs.length with hlt | rfl | hgt
  · rw [List.getElem?_append_left hlt] at hn
    exact h n r' hn
  · rw [List.getElem?_append_right (Nat.le_refl _), Nat.sub_self] at hn
    rw [← Option.some.inj hn]
    exact hr
  · rw [List.getElem?_eq_none (by simp; omega)] at hn
    exact absurd hn (by simp)

/-- The books of a loop that reports: `seen` writes were taken off the ring and reported,
`waiting` ones were not, `done` bytes were counted in `count` reports. -/
structure Told (total : ℕ) (log : List Ev) (waiting : List ℕ) (done count : ℕ) : Prop where
  truthful : Truthful log
  seen : ∃ seen, landed log = seen ++ waiting ∧ seen.length = count ∧ seen.sum = done
  count : (reports log).length = count
  totals : ∀ r ∈ reports log, r.2 = total
  increasing : ((reports log).map Prod.fst).Pairwise (· < ·)
  le_done : ∀ r ∈ reports log, r.1 ≤ done
  last : done ≠ 0 → (reports log).getLast? = some (done, total)
  done_le : done ≤ total

variable {total done count : ℕ} {log new : List Ev} {waiting : List ℕ}

/-- A step that reports nothing and completes no write. -/
theorem Told.congr (h : Told total log waiting done count) (htrue : Truthful new ↔ Truthful log)
    (hlanded : landed new = landed log) (hreports : reports new = reports log) :
    Told total new waiting done count where
  truthful := htrue.mpr h.truthful
  seen := by rw [hlanded]; exact h.seen
  count := by rw [hreports]; exact h.count
  totals := by rw [hreports]; exact h.totals
  increasing := by rw [hreports]; exact h.increasing
  le_done := by rw [hreports]; exact h.le_done
  last := by rw [hreports]; exact h.last
  done_le := h.done_le

theorem Told.prep (h : Told total log waiting done count) (q : Sqe) :
    Told total (.prep q :: log) waiting done count :=
  h.congr Iff.rfl rfl rfl

theorem Told.fsync (h : Told total log waiting done count) (f : ℕ) :
    Told total (.fsync f :: log) waiting done count :=
  h.congr Iff.rfl rfl rfl

theorem Told.doneRead (h : Told total log waiting done count) {q : Sqe} (hop : q.opcode = .read)
    (res : ℤ) : Told total (.done q res :: log) waiting done count :=
  h.congr Iff.rfl (by rw [landed, hop]) rfl

theorem Told.doneWrite (h : Told total log waiting done count) {q : Sqe} (hop : q.opcode = .write)
    (res : ℤ) : Told total (.done q res :: log) (waiting ++ [res.toNat]) done count where
  truthful := h.truthful
  seen := by
    obtain ⟨seen, hseen, hcount, hsum⟩ := h.seen
    exact ⟨seen, by rw [landed, hop, ← List.append_assoc, ← hseen], hcount, hsum⟩
  count := h.count
  totals := h.totals
  increasing := h.increasing
  le_done := h.le_done
  last := h.last
  done_le := h.done_le

/-- **The next write is taken off the ring and reported.** -/
theorem Told.report {n : ℕ} (h : Told total log (n :: waiting) done count) (hpos : 0 < n)
    (hle : done + n ≤ total) :
    Told total (.progress (done + n) total :: log) waiting (done + n) (count + 1) := by
  obtain ⟨seen, hseen, hlen, hsum⟩ := h.seen
  have htake : (landed log).take ((reports log).length + 1) = seen ++ [n] := by
    have hlen' : (reports log).length + 1 = (seen ++ [n]).length := by
      rw [h.count, List.length_append, hlen, List.length_singleton]
    have hsplit : seen ++ n :: waiting = (seen ++ [n]) ++ waiting := by simp
    rw [hseen, hlen', hsplit, List.take_left]
  refine ⟨⟨h.truthful, ?_, ?_⟩, ⟨seen ++ [n], ?_, ?_, ?_⟩, ?_, ?_, ?_, ?_, ?_, hle⟩
  · rw [hseen, h.count, List.length_append, hlen, List.length_cons]
    omega
  · rw [htake, List.sum_append, hsum, List.sum_singleton]
  · rw [landed, hseen, List.append_assoc, List.singleton_append]
  · rw [List.length_append, hlen, List.length_singleton]
  · rw [List.sum_append, hsum, List.sum_singleton]
  · rw [reports, List.length_append, h.count, List.length_singleton]
  · intro r hr
    rcases List.mem_append.mp hr with hr | hr
    · exact h.totals r hr
    · rw [List.mem_singleton.mp hr]
  · rw [reports, List.map_append, List.pairwise_append]
    refine ⟨h.increasing, by simp, ?_⟩
    intro a ha b hb
    obtain ⟨r, hr, rfl⟩ := List.mem_map.mp ha
    have := h.le_done r hr
    rw [List.mem_singleton.mp hb]
    simp only
    omega
  · intro r hr
    rcases List.mem_append.mp hr with hr | hr
    · have := h.le_done r hr
      omega
    · rw [List.mem_singleton.mp hr]
  · intro _
    rw [reports, List.getLast?_append]
    rfl

/-- The reports of a call with `total` bytes are right. -/
structure ReportsRight (cb : PyProgressCb) (total : ℕ) (log : List Ev) : Prop where
  truthful : Truthful log
  totals : ∀ r ∈ reports log, r.2 = total
  increasing : ((reports log).map Prod.fst).Pairwise (· < ·)
  le : ∀ r ∈ reports log, r.1 ≤ total
  stops : ∀ n r, (reports log)[n]? = some r → Asks cb n r → n + 1 = (reports log).length

/-- So is the value that it returns. -/
structure ReturnRight (cb : PyProgressCb) (total : ℕ) (log : List Ev) (ret : ℤ) : Prop where
  succeeds : Silent cb (reports log) → ret = total ∧
    (total ≠ 0 → (reports log).getLast? = some (total, total))
  cancelled : ¬ Silent cb (reports log) → ret = ECANCELED.neg

theorem Told.reportsRight {cb : PyProgressCb} (h : Told total log waiting done count)
    (hstop : Silent cb (reports log) ∨ Stopped cb (reports log)) : ReportsRight cb total log where
  truthful := h.truthful
  totals := h.totals
  increasing := h.increasing
  le r hr := Nat.le_trans (h.le_done r hr) h.done_le
  stops n r hn hask := by
    rcases hstop with hsilent | ⟨rs, last, heq, hsilent, -⟩
    · exact absurd hask (hsilent n r hn)
    · rw [heq, List.length_append, List.length_singleton]
      rw [heq] at hn
      rcases Nat.lt_trichotomy n rs.length with hlt | rfl | hgt
      · rw [List.getElem?_append_left hlt] at hn
        exact absurd hask (hsilent n r hn)
      · rfl
      · rw [List.getElem?_eq_none (by simp; omega)] at hn
        exact absurd hn (by simp)

theorem Told.succeeds {cb : PyProgressCb} (h : Told total log [] total count)
    (hsilent : Silent cb (reports log)) : ReturnRight cb total log total where
  succeeds _ := ⟨rfl, h.last⟩
  cancelled hnot := absurd hsilent hnot

end Native
end Pyuring
