import Mathlib.Data.Nat.Notation
import Mathlib.Tactic.TypeStar
import Mathlib.Data.List.Basic
import Mathlib.Order.Lattice
import Mathlib.Order.Nat

/-!
# Files with holes

A file of a given size in which a byte is either written or a hole.  A write of
a block of bytes at an offset changes exactly those bytes and extends the file
when the block ends past its end; truncation cuts the file or extends it by a
hole.  Reading a hole gives the default byte, which is what `contents` does, but
the hole stays visible in `byte`: a file that happens to read right through a
hole has not been written right.

`Holds l f` says that `f` is `l`, byte for byte and with no hole; `Whole f` says only that it
has no hole, and `Within l f` that it is no longer than `l` and has no byte that `l` has not at
the same place.
-/

namespace Pyuring

variable {β : Type*}

/-- A file: its size, and the bytes that were written. -/
structure SparseFile (β : Type*) where
  size : ℕ
  byte : ℕ → Option β

namespace SparseFile

/-- The empty file. -/
def empty : SparseFile β := ⟨0, fun _ => none⟩

/-- Write the block `bs` at offset `off`.  Writing no byte changes nothing, not
even the size. -/
def write (off : ℕ) (bs : List β) (f : SparseFile β) : SparseFile β where
  size := if bs = [] then f.size else max f.size (off + bs.length)
  byte p := if off ≤ p ∧ p < off + bs.length then bs[p - off]? else f.byte p

/-- Cut or extend the file to `n` bytes. -/
def truncate (n : ℕ) (f : SparseFile β) : SparseFile β where
  size := n
  byte p := if p < n ∧ p < f.size then f.byte p else none

/-- What a reader of the file sees: holes read as the default byte. -/
def contents [Inhabited β] (f : SparseFile β) : List β :=
  (List.range f.size).map fun p => (f.byte p).getD default

/-- Read up to `n` bytes at offset `off`; the end of the file cuts a read short. -/
def read [Inhabited β] (off n : ℕ) (f : SparseFile β) : List β :=
  (List.range (min n (f.size - off))).map fun k => (f.byte (off + k)).getD default

/-- The file is `l`, with no hole. -/
def Holds (l : List β) (f : SparseFile β) : Prop :=
  f.size = l.length ∧ ∀ p < l.length, f.byte p = l[p]?

/-- No position below the end of the file is a hole. -/
def Whole (f : SparseFile β) : Prop := ∀ p < f.size, f.byte p ≠ none

/-- What was written is of `l`, and in its place. -/
def Within (l : List β) (f : SparseFile β) : Prop :=
  f.size ≤ l.length ∧ ∀ p b, f.byte p = some b → l[p]? = some b

theorem write_nil (off : ℕ) (f : SparseFile β) : f.write off [] = f := by
  have h : ∀ p, ¬ (off ≤ p ∧ p < off + 0) := fun p => by omega
  simp only [write, List.length_nil, h, if_false, if_true]

theorem byte_write_of_mem {off p : ℕ} {bs : List β} {f : SparseFile β}
    (h : off ≤ p ∧ p < off + bs.length) : (f.write off bs).byte p = bs[p - off]? := by
  simp only [write, h, and_self, if_true]

theorem byte_write_of_notMem {off p : ℕ} {bs : List β} {f : SparseFile β}
    (h : ¬ (off ≤ p ∧ p < off + bs.length)) : (f.write off bs).byte p = f.byte p := by
  simp only [write, h, if_false]

theorem size_write {off : ℕ} {bs : List β} {f : SparseFile β} (h : bs ≠ []) :
    (f.write off bs).size = max f.size (off + bs.length) := by
  simp only [write, h, if_false]

/-- Writing does not make a file shorter. -/
theorem size_le_size_write (off : ℕ) (bs : List β) (f : SparseFile β) :
    f.size ≤ (f.write off bs).size := by
  simp only [write]
  split
  · exact Nat.le_refl _
  · exact Nat.le_max_left _ _

/-- What was written is read back. -/
theorem read_write [Inhabited β] (off : ℕ) (bs : List β) (f : SparseFile β) :
    (f.write off bs).read off bs.length = bs := by
  by_cases hbs : bs = []
  · simp [hbs, read]
  have hroom : min bs.length ((f.write off bs).size - off) = bs.length := by
    rw [size_write hbs]
    omega
  ext k : 1
  rw [read, hroom, List.getElem?_map]
  rcases Nat.lt_or_ge k bs.length with hk | hk
  · rw [List.getElem?_range hk, Option.map_some, byte_write_of_mem (by omega),
      Nat.add_sub_cancel_left, List.getElem?_eq_getElem hk]
    rfl
  · rw [List.getElem?_eq_none (by rwa [List.length_range]), List.getElem?_eq_none hk]
    rfl

@[simp] theorem size_truncate (n : ℕ) (f : SparseFile β) : (f.truncate n).size = n := rfl

theorem byte_truncate {n p : ℕ} {f : SparseFile β} (hn : p < n) (hf : p < f.size) :
    (f.truncate n).byte p = f.byte p := by
  simp only [truncate, hn, hf, and_self, if_true]

theorem within_empty (l : List β) : (empty : SparseFile β).Within l :=
  ⟨Nat.zero_le _, fun _ _ h => absurd h (by simp [empty])⟩

/-- A block that `l` has at `off` may be written there. -/
theorem Within.write {l : List β} {f : SparseFile β} (h : f.Within l) {off : ℕ} {bs : List β}
    (hroom : off + bs.length ≤ l.length) (hbs : bs = (l.drop off).take bs.length) :
    (f.write off bs).Within l := by
  refine ⟨?_, fun p b hp => ?_⟩
  · simp only [SparseFile.write]
    split
    · exact h.1
    · exact Nat.max_le.mpr ⟨h.1, hroom⟩
  · by_cases hcov : off ≤ p ∧ p < off + bs.length
    · have hplace : off + (p - off) = p := Nat.add_sub_cancel' hcov.1
      rw [byte_write_of_mem hcov, hbs, List.getElem?_take_of_lt (by omega), List.getElem?_drop,
        hplace] at hp
      exact hp
    · rw [byte_write_of_notMem hcov] at hp
      exact h.2 p b hp

theorem Within.truncate {l : List β} {f : SparseFile β} (h : f.Within l) {n : ℕ}
    (hn : n ≤ l.length) : (f.truncate n).Within l := by
  refine ⟨hn, fun p b hp => ?_⟩
  simp only [SparseFile.truncate] at hp
  split at hp
  · exact h.2 p b hp
  · exact absurd hp (by simp)

/-- A file that holds `l` reads as `l`. -/
theorem contents_of_holds [Inhabited β] {l : List β} {f : SparseFile β} (h : f.Holds l) :
    f.contents = l := by
  apply List.ext_getElem
  · simp [contents, h.1]
  · intro p h₁ h₂
    simp [contents, h.2 p h₂, List.getElem?_eq_getElem h₂]

end SparseFile
end Pyuring
