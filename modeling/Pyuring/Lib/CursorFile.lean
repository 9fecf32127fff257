import Mathlib.Data.List.Basic
import Mathlib.Data.Nat.Notation
import Mathlib.Tactic.TypeStar

/-!
# Files with a cursor

A file as a sequence of bytes with one cursor.  A read returns what stands from the
cursor on and moves the cursor behind it; a write overwrites there, and extends the
file when it goes past its end.  A file opened for appending writes at its end
wherever the cursor stands.

Reading is compatible with slicing: two reads in a row are one read of the sum of
their lengths (`read_add`), and a read that comes back shorter than asked for has
reached the end (`read_eq_readAll`).  That is what a read in slices needs.
-/

namespace Pyuring

variable {β : Type*}

/-- The list with the block `bs` at offset `off`.  A gap before the block is filled
with the default byte. -/
def overwrite [Inhabited β] (off : ℕ) (bs l : List β) : List β :=
  l.take off ++ List.replicate (off - l.length) default ++ bs ++ l.drop (off + bs.length)

theorem length_overwrite [Inhabited β] (off : ℕ) (bs l : List β) :
    (overwrite off bs l).length = max l.length (off + bs.length) := by
  simp only [overwrite, List.length_append, List.length_take, List.length_replicate,
    List.length_drop]
  omega

/-- A file, its cursor, and whether it is open for appending. -/
structure CursorFile (β : Type*) where
  content : List β
  cursor : ℕ
  append : Bool

namespace CursorFile

/-- What stands from the cursor on. -/
def rest (f : CursorFile β) : List β := f.content.drop f.cursor

/-- Move the cursor forward. -/
def advance (n : ℕ) (f : CursorFile β) : CursorFile β := { f with cursor := f.cursor + n }

/-- Read at most `n` bytes. -/
def read (n : ℕ) (f : CursorFile β) : List β × CursorFile β :=
  (f.rest.take n, f.advance (f.rest.take n).length)

/-- Read to the end. -/
def readAll (f : CursorFile β) : List β × CursorFile β := (f.rest, f.advance f.rest.length)

/-- Where a write goes. -/
def writeOffset (f : CursorFile β) : ℕ := if f.append then f.content.length else f.cursor

/-- Write a block and move the cursor behind it.  Writing no byte changes nothing. -/
def write [Inhabited β] (bs : List β) (f : CursorFile β) : CursorFile β :=
  if bs = [] then f else
    { f with content := overwrite f.writeOffset bs f.content, cursor := f.writeOffset + bs.length }

variable {f : CursorFile β} {m n : ℕ}

@[simp] theorem advance_zero (f : CursorFile β) : f.advance 0 = f := rfl

@[simp] theorem advance_advance (f : CursorFile β) (m n : ℕ) :
    (f.advance m).advance n = f.advance (m + n) := by
  simp only [advance, Nat.add_assoc]

@[simp] theorem content_advance (f : CursorFile β) (n : ℕ) : (f.advance n).content = f.content :=
  rfl

@[simp] theorem cursor_advance (f : CursorFile β) (n : ℕ) :
    (f.advance n).cursor = f.cursor + n := rfl

@[simp] theorem append_advance (f : CursorFile β) (n : ℕ) : (f.advance n).append = f.append := rfl

theorem rest_advance (f : CursorFile β) (n : ℕ) : (f.advance n).rest = f.rest.drop n := by
  simp only [rest, advance, List.drop_drop]

theorem length_rest (f : CursorFile β) : f.rest.length = f.content.length - f.cursor :=
  List.length_drop

/-- **Two reads in a row are one read** of the sum of their lengths. -/
theorem read_add (f : CursorFile β) (m n : ℕ) :
    f.read (m + n) = ((f.read m).1 ++ ((f.read m).2.read n).1, ((f.read m).2.read n).2) := by
  have hdrop : (f.rest.drop (min m f.rest.length)).take n = (f.rest.drop m).take n := by
    rcases Nat.le_total m f.rest.length with hle | hle
    · rw [Nat.min_eq_left hle]
    · rw [Nat.min_eq_right hle, List.drop_eq_nil_of_le (Nat.le_refl _), List.drop_eq_nil_of_le hle]
  have hbytes : f.rest.take (m + n) =
      f.rest.take m ++ ((f.advance (f.rest.take m).length).rest).take n := by
    rw [rest_advance, List.length_take, hdrop, List.take_add]
  simp only [read, advance_advance, hbytes, List.length_append]

/-- A read that comes back short has read to the end. -/
theorem read_eq_readAll (h : f.rest.length ≤ n) : f.read n = f.readAll := by
  simp only [read, readAll, List.take_of_length_le h]

/-- Reading the rest of the file in two. -/
theorem readAll_eq (f : CursorFile β) (m : ℕ) :
    f.readAll = ((f.read m).1 ++ (f.read m).2.readAll.1, (f.read m).2.readAll.2) := by
  have hrest : (f.rest.drop (f.rest.take m).length) = f.rest.drop m := by
    rw [List.length_take]
    rcases Nat.le_total m f.rest.length with hle | hle
    · rw [Nat.min_eq_left hle]
    · rw [Nat.min_eq_right hle, List.drop_eq_nil_of_le (Nat.le_refl _), List.drop_eq_nil_of_le hle]
  have hlen : f.rest.length = (f.rest.take m).length + (f.rest.drop m).length := by
    rw [← List.length_append, List.take_append_drop]
  simp only [readAll, read, rest_advance, hrest, List.take_append_drop, advance_advance]
  rw [hlen]

theorem read_zero (f : CursorFile β) : f.read 0 = ([], f) := by
  simp only [read, List.take_zero, List.length_nil, advance_zero]

theorem write_nil [Inhabited β] (f : CursorFile β) : f.write [] = f := if_pos rfl

@[simp] theorem append_write [Inhabited β] (bs : List β) (f : CursorFile β) :
    (f.write bs).append = f.append := by
  unfold write; split <;> rfl

end CursorFile
end Pyuring
