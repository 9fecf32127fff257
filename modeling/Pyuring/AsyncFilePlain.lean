import Pyuring.AsyncFile

/-!
# The plain file

What the calls of an `AsyncFile` would do on a plain file with a cursor: `Op.run` is one
call carried out at once, `runAll` one after the other.

An `AsyncFile` reads in slices.  What a loop has read so far and what it will still read
make up what the operation returns (`ReadLoop.finish`), and a slice moves bytes from the
one to the other (`ReadLoop.finish_of_inl`, `ReadLoop.finish_of_inr`).
-/

namespace Pyuring
namespace AsyncFile

/-- What a call returns and does on a plain file. -/
def Op.run : Op → CursorFile UInt8 → Outcome × CursorFile UInt8
  | .read n, f =>
    if n < -1 then (.error (.valueError "invalid read length"), f)
    else
      let r := if n < 0 then f.readAll else f.read n.toNat
      (.bytes r.1, r.2)
  | .write data, f => (.count data.length, f.write data)
  | .aclose, f => (.none, f)

/-- One operation after the other. -/
def runAll : List Op → CursorFile UInt8 → List Outcome × CursorFile UInt8
  | [], f => ([], f)
  | op :: ops, f => ((op.run f).1 :: (runAll ops (op.run f).2).1, (runAll ops (op.run f).2).2)

/-- The plain file as it is opened: truncated or not, with the cursor at the start, or at
the end for appending. -/
def opened (mode : Mode) (content : List UInt8) : CursorFile UInt8 :=
  let flags := modeToFlags mode
  let content := if flags.trunc then [] else content
  ⟨content, if flags.append then content.length else 0, flags.append⟩

variable {flags : Flags} {f : CursorFile UInt8} {o : Outcome}

/-! ## Runs of the plain file -/

theorem runAll_append (ops : List Op) (op : Op) (f : CursorFile UInt8) :
    runAll (ops ++ [op]) f =
      ((runAll ops f).1 ++ [(op.run (runAll ops f).2).1], (op.run (runAll ops f).2).2) := by
  induction ops generalizing f with
  | nil => rfl
  | cons d ops ih => simp only [List.cons_append, runAll, ih]

/-- The file is as it is in this mode; for appending the cursor is at its end. -/
def Fits (flags : Flags) (f : CursorFile UInt8) : Prop :=
  f.append = flags.append ∧ (f.append = true → f.cursor = f.content.length)

theorem Fits.writeOffset (h : Fits flags f) : f.writeOffset = f.cursor := by
  unfold CursorFile.writeOffset
  split
  · next happend => exact (h.2 happend).symm
  · rfl

theorem Fits.advance (h : Fits flags f) {n : ℕ} (hn : n ≤ f.rest.length) :
    Fits flags (f.advance n) := by
  refine ⟨h.1, ?_⟩
  intro happend
  have hcursor : f.cursor = f.content.length := h.2 happend
  rw [CursorFile.length_rest] at hn
  rw [CursorFile.cursor_advance, CursorFile.content_advance]
  omega

theorem Fits.write (h : Fits flags f) (data : List UInt8) : Fits flags (f.write data) := by
  unfold CursorFile.write
  split
  · exact h
  · refine ⟨h.1, ?_⟩
    intro happend
    have hcursor : f.cursor = f.content.length := h.2 happend
    change f.writeOffset + data.length = (overwrite f.writeOffset data f.content).length
    rw [h.writeOffset, hcursor]
    simp [overwrite]

theorem Fits.run (h : Fits flags f) (op : Op) : Fits flags (op.run f).2 := by
  cases op with
  | read n =>
    simp only [Op.run]
    split
    · exact h
    · split
      · exact h.advance (Nat.le_refl _)
      · exact h.advance (List.length_take_le' _ _)
  | write data => exact h.write data
  | aclose => exact h

theorem Fits.runAll (h : Fits flags f) (ops : List Op) : Fits flags (runAll ops f).2 := by
  induction ops generalizing f with
  | nil => exact h
  | cons op ops ih => exact ih (h.run op)

theorem fits_opened (mode : Mode) (content : List UInt8) :
    Fits (modeToFlags mode) (opened mode content) := by
  refine ⟨rfl, ?_⟩
  intro happend
  simp only [opened] at happend ⊢
  rw [if_pos happend]

/-- The plain file knows no tags. -/
theorem run_ne_mismatch (op : Op) (f : CursorFile UInt8) (io : Io) (ud gotUd : ℕ) :
    (op.run f).1 ≠ .error (mismatch io ud gotUd) := by
  cases op with
  | read n =>
    simp only [Op.run]
    split
    · simp [mismatch]
    · simp
  | write data => simp [Op.run]
  | aclose => simp [Op.run]

theorem mem_runAll {ops : List Op} (h : o ∈ (runAll ops f).1) :
    ∃ (op : Op) (g : CursorFile UInt8), o = (op.run g).1 := by
  induction ops generalizing f with
  | nil => exact absurd h List.not_mem_nil
  | cons op ops ih =>
    rcases List.mem_cons.mp h with rfl | hmem
    · exact ⟨op, f, rfl⟩
    · exact ih hmem

/-- A call that is refused does nothing to the plain file. -/
theorem run_of_early {op : Op} (h : op.early false = some o) (f : CursorFile UInt8) :
    op.run f = (o, f) := by
  cases op with
  | read n =>
    simp only [Op.early, Bool.false_eq_true, if_false] at h
    split_ifs at h with hn
    simp only [Op.run, if_pos hn, ← Option.some.inj h]
  | write data =>
    simp only [Op.early, Bool.false_eq_true, if_false] at h
    split_ifs at h with hdata
    simp only [Op.run, hdata, List.length_nil, CursorFile.write_nil, ← Option.some.inj h]
  | aclose => exact absurd h (by simp [Op.early])

/-! ## Reading in slices -/

/-- What a read in slices returns and does from here on. -/
def ReadLoop.finish (f : CursorFile UInt8) : ReadLoop → List UInt8 × CursorFile UInt8
  | .untilEof chunks => (chunks ++ f.readAll.1, f.readAll.2)
  | .upTo out remaining => (out ++ (f.read remaining).1, (f.read remaining).2)

theorem readSlice_pos : 0 < readSlice := by decide

/-- A slice that comes back short has read the rest of the file. -/
theorem read_eq_readAll_of_short {n : ℕ} (h : (f.read n).1.length < n) :
    f.rest.length < n ∧ f.read n = f.readAll := by
  have hlen : (f.read n).1.length = min n f.rest.length := List.length_take
  have hrest : f.rest.length < n := by omega
  exact ⟨hrest, f.read_eq_readAll (Nat.le_of_lt hrest)⟩

/-- A slice after which the loop goes on: it goes on behind it. -/
theorem ReadLoop.finish_of_inl {loop loop' : ReadLoop} {piece : List UInt8}
    (hpiece : piece = (f.read loop.chunkSz).1) (hfeed : loop.feed piece = .inl loop') :
    loop.finish f = loop'.finish (f.read loop.chunkSz).2 ∧ 0 < loop'.chunkSz := by
  have hle : piece.length ≤ loop.chunkSz := by
    rw [hpiece]
    exact List.length_take_le _ _
  cases loop with
  | untilEof chunks =>
    simp only [ReadLoop.feed] at hfeed
    split_ifs at hfeed
    obtain rfl := Sum.inl.inj hfeed
    refine ⟨?_, readSlice_pos⟩
    have hall := f.readAll_eq readSlice
    simp only [ReadLoop.chunkSz] at hpiece ⊢
    rw [← hpiece] at hall
    simp only [ReadLoop.finish, List.append_assoc]
    rw [hall]
  | upTo out remaining =>
    simp only [ReadLoop.feed] at hfeed
    split_ifs at hfeed with _ hshort hlast
    obtain rfl := Sum.inl.inj hfeed
    simp only [ReadLoop.chunkSz] at hle hpiece ⊢
    refine ⟨?_, by have := readSlice_pos; omega⟩
    have hlen : piece.length = min remaining readSlice := by omega
    have hsplit : remaining = min remaining readSlice + (remaining - piece.length) := by omega
    have hread := f.read_add (min remaining readSlice) (remaining - piece.length)
    rw [← hsplit, ← hpiece] at hread
    simp only [ReadLoop.finish, hread, List.append_assoc]

/-- A slice after which the loop returns: there was nothing more to read. -/
theorem ReadLoop.finish_of_inr {loop : ReadLoop} {piece out : List UInt8}
    (hsize : 0 < loop.chunkSz) (hpiece : piece = (f.read loop.chunkSz).1)
    (hfeed : loop.feed piece = .inr out) :
    loop.finish f = (out, (f.read loop.chunkSz).2) := by
  have hle : piece.length ≤ loop.chunkSz := by
    rw [hpiece]
    exact List.length_take_le _ _
  have hshort : piece.length < loop.chunkSz →
      f.rest.length < loop.chunkSz ∧ f.read loop.chunkSz = f.readAll := by
    rw [hpiece]
    exact read_eq_readAll_of_short
  cases loop with
  | untilEof chunks =>
    simp only [ReadLoop.chunkSz] at hsize hpiece hshort ⊢
    have hall : piece.length < readSlice →
        (ReadLoop.untilEof chunks).finish f =
          (chunks ++ piece, (f.read readSlice).2) := fun hlt => by
      simp only [ReadLoop.finish, ← (hshort hlt).2, hpiece]
    simp only [ReadLoop.feed] at hfeed
    split_ifs at hfeed with hnil hlt
    · rw [hall (by rw [hnil]; exact hsize), ← Sum.inr.inj hfeed, hnil, List.append_nil]
    · rw [hall hlt, ← Sum.inr.inj hfeed]
  | upTo acc remaining =>
    simp only [ReadLoop.chunkSz] at hsize hpiece hshort hle ⊢
    have hall : piece.length < min remaining readSlice →
        (ReadLoop.upTo acc remaining).finish f =
          (acc ++ piece, (f.read (min remaining readSlice)).2) := fun hlt => by
      obtain ⟨hrest, hread⟩ := hshort hlt
      have heq : f.read remaining = f.read (min remaining readSlice) := by
        rw [hread, f.read_eq_readAll (by omega)]
      simp only [ReadLoop.finish, heq, hpiece]
    simp only [ReadLoop.feed] at hfeed
    split_ifs at hfeed with hnil hlt hlast
    · rw [hall (by rw [hnil]; exact hsize), ← Sum.inr.inj hfeed, hnil, List.append_nil]
    · rw [hall hlt, ← Sum.inr.inj hfeed]
    · have hmin : min remaining readSlice = remaining := by omega
      rw [hmin] at hpiece ⊢
      rw [← Sum.inr.inj hfeed]
      simp only [ReadLoop.finish, hpiece]

end AsyncFile
end Pyuring
