import Mathlib.Data.List.Nodup
import Mathlib.Data.List.Perm.Basic
import Mathlib.Logic.Function.Basic
import Mathlib.Tactic.TypeStar

/-!
# Programs that allocate and free

A heap has a block at each address that is in use.  A program loads and stores whole blocks,
allocates them and frees them, and it goes wrong when it touches an address that is not in use.
What an allocation gives is an answer of the outside world.

1. `Owns h own others` splits a heap: the addresses of `own` hold what it says, and what is left
   is `others`.  An address that `own` lists without a block is not in use, and nobody else will
   be given it, so a program that gave back all its blocks has left the heap as it found it
   (`Owns.eq_others`).
2. `Runs pre p x post` says that `p` does not go wrong where `pre` is owned, returns `x`, owns
   `post` afterwards, and has touched nothing else.  There is one rule for each operation; its
   first argument is what is listed before the address, which tells the rule where to look.
-/

namespace Pyuring

universe u

/-- The blocks in use. -/
abbrev Heap (α γ : Type u) : Type u := α → Option γ

namespace Heap

/-- A program, `none` when it goes wrong. -/
abbrev Prog (α γ : Type u) : Type u → Type u := StateT (Heap α γ) Option

variable {α γ τ υ ι : Type u}

/-! ## Operations -/

def wrong : Prog α γ τ := fun _ => none

def load (a : α) : Prog α γ γ := fun h => (h a).map fun c => (c, h)

section Operations

variable [DecidableEq α]

def store (a : α) (c : γ) : Prog α γ PUnit := fun h =>
  (h a).map fun _ => (⟨⟩, Function.update h a (some c))

/-- The answer is the address and what is in the block, `none` for the null pointer. -/
def malloc (answer : Option (α × γ)) : Prog α γ (Option α) := fun h =>
  match answer with
  | none => some (none, h)
  | some (a, c) => some (some a, Function.update h a (some c))

/-- Freeing the null pointer does nothing. -/
def free : Option α → Prog α γ PUnit
  | none => pure ⟨⟩
  | some a => fun h => (h a).map fun _ => (⟨⟩, Function.update h a none)

end Operations

theorem bind_apply (p : Prog α γ τ) (f : τ → Prog α γ υ) (h : Heap α γ) :
    (p >>= f) h = (p h).bind fun r => f r.1 r.2 := rfl

/-! ## What is owned -/

/-- The heap is `others` with the blocks of `own`. -/
structure Owns (h : Heap α γ) (own : List (α × Option γ)) (others : Heap α γ) : Prop where
  nodup : (own.map Prod.fst).Nodup
  mine : ∀ a v, (a, v) ∈ own → h a = v
  theirs : ∀ a v, (a, v) ∈ own → others a = none
  rest : ∀ a, a ∉ own.map Prod.fst → h a = others a

variable {h h' others others' : Heap α γ} {own own' pre mid post l₁ l₂ : List (α × Option γ)}
  {a b : α} {c c' : γ} {v w : Option γ} {x : τ} {y : υ}

theorem Owns.perm (hown : Owns h own others) (hperm : own.Perm own') : Owns h own' others where
  nodup := (hperm.map Prod.fst).nodup_iff.mp hown.nodup
  mine a v hmem := hown.mine a v (hperm.mem_iff.mpr hmem)
  theirs a v hmem := hown.theirs a v (hperm.mem_iff.mpr hmem)
  rest a ha := hown.rest a fun hmem => ha ((hperm.map Prod.fst).mem_iff.mp hmem)

theorem Owns.get (hown : Owns h (l₁ ++ (a, v) :: l₂) others) : h a = v :=
  hown.mine a v (by simp)

/-- A block that is listed elsewhere is another one. -/
theorem Owns.ne (hown : Owns h (l₁ ++ (a, v) :: l₂) others) (hb : (b, w) ∈ l₁ ++ l₂) : b ≠ a := by
  rintro rfl
  have hnodup := hown.nodup
  rw [List.map_append, List.map_cons, List.nodup_middle] at hnodup
  refine (List.nodup_cons.mp hnodup).1 ?_
  rw [← List.map_append]
  exact List.mem_map.mpr ⟨(b, w), hb, rfl⟩

/-- An address that is owned changes hands between the program and the allocator. -/
theorem Owns.set [DecidableEq α] (l₁ : List (α × Option γ))
    (hown : Owns h (l₁ ++ (a, v) :: l₂) others) (w : Option γ) :
    Owns (Function.update h a w) (l₁ ++ (a, w) :: l₂) others where
  nodup := by simpa using hown.nodup
  mine b u hb := by
    rw [List.mem_append, List.mem_cons] at hb
    by_cases hmem : (b, u) ∈ l₁ ++ l₂
    · rw [Function.update_of_ne (hown.ne hmem)]
      rw [List.mem_append] at hmem
      exact hown.mine b u (by simpa using hmem.imp_right Or.inr)
    · rw [List.mem_append, not_or] at hmem
      have heq : (b, u) = (a, w) := by tauto
      obtain ⟨rfl, rfl⟩ := Prod.mk.inj heq
      exact Function.update_self ..
  theirs b u hb := by
    have hin : b ∈ (l₁ ++ (a, v) :: l₂).map Prod.fst := by
      have := List.mem_map_of_mem (f := Prod.fst) hb
      simpa using this
    obtain ⟨⟨d, u'⟩, hd, rfl⟩ := List.mem_map.mp hin
    exact hown.theirs d u' hd
  rest b hb := by
    have hin : b ∉ (l₁ ++ (a, v) :: l₂).map Prod.fst := by simpa using hb
    have hne : b ≠ a := by
      rintro rfl
      exact hb (by simp)
    rw [Function.update_of_ne hne]
    exact hown.rest b hin

/-- An address that is not in use is reserved. -/
theorem Owns.reserve (hown : Owns h own others) (ha : h a = none) (hmem : a ∉ own.map Prod.fst) :
    Owns h ((a, none) :: own) others where
  nodup := List.nodup_cons.mpr ⟨hmem, hown.nodup⟩
  mine b v hb := by
    rcases List.mem_cons.mp hb with heq | hb
    · obtain ⟨rfl, rfl⟩ := Prod.mk.inj heq
      exact ha
    · exact hown.mine b v hb
  theirs b v hb := by
    rcases List.mem_cons.mp hb with heq | hb
    · obtain ⟨rfl, rfl⟩ := Prod.mk.inj heq
      rw [← hown.rest b hmem, ha]
    · exact hown.theirs b v hb
  rest b hb := hown.rest b fun hin => hb (List.mem_cons_of_mem a hin)

/-- Reserved addresses that are not in use need not be listed. -/
theorem Owns.release (hown : Owns h (own ++ own') others)
    (hfree : ∀ a v, (a, v) ∈ own' → v = none) :
    Owns h own others where
  nodup := by
    have hnodup := hown.nodup
    rw [List.map_append] at hnodup
    exact hnodup.of_append_left
  mine b v hb := hown.mine b v (List.mem_append_left _ hb)
  theirs b v hb := hown.theirs b v (List.mem_append_left _ hb)
  rest b hb := by
    by_cases hin : b ∈ own'.map Prod.fst
    · obtain ⟨⟨d, v⟩, hd, rfl⟩ := List.mem_map.mp hin
      obtain rfl := hfree d v hd
      rw [hown.mine d none (List.mem_append_right _ hd),
        hown.theirs d none (List.mem_append_right _ hd)]
    · refine hown.rest b ?_
      rw [List.map_append, List.mem_append]
      exact fun hor => hor.elim hb hin

/-- **Nothing is left behind**: without a block of its own a program has left what there was. -/
theorem Owns.eq_others (hown : Owns h own others) (hfree : ∀ a v, (a, v) ∈ own → v = none) :
    h = others := by
  have hnil : Owns h [] others := Owns.release (by rwa [List.nil_append]) hfree
  funext a
  exact hnil.rest a (by simp)

/-- What happens at an address of somebody else, which is not owned before and after. -/
theorem Owns.update_others [DecidableEq α] (hown : Owns h own others) (ha : a ∉ own.map Prod.fst)
    (v : Option γ) : Owns (Function.update h a v) own (Function.update others a v) where
  nodup := hown.nodup
  mine b w hb := by
    have hne : b ≠ a := fun heq => ha (heq ▸ List.mem_map_of_mem (f := Prod.fst) hb)
    rw [Function.update_of_ne hne]
    exact hown.mine b w hb
  theirs b w hb := by
    have hne : b ≠ a := fun heq => ha (heq ▸ List.mem_map_of_mem (f := Prod.fst) hb)
    rw [Function.update_of_ne hne]
    exact hown.theirs b w hb
  rest b hb := by
    by_cases hba : b = a
    · rw [hba, Function.update_self, Function.update_self]
    · rw [Function.update_of_ne hba, Function.update_of_ne hba]
      exact hown.rest b hb

theorem Owns.notMem_of_others (hown : Owns h own others) (ha : (others a).isSome) :
    a ∉ own.map Prod.fst := by
  intro hin
  obtain ⟨⟨d, v⟩, hd, rfl⟩ := List.mem_map.mp hin
  rw [hown.theirs d v hd] at ha
  exact absurd ha (by simp)

/-- An address of `own` without a block is the only one there that is not in use. -/
theorem Owns.notMem_of_free (hown : Owns h own others) (hsome : ∀ a v, (a, v) ∈ own → v.isSome)
    (ha : h a = none) : a ∉ own.map Prod.fst := by
  intro hin
  obtain ⟨⟨d, v⟩, hd, rfl⟩ := List.mem_map.mp hin
  have hv := hsome d v hd
  rw [← hown.mine d v hd, ha] at hv
  exact absurd hv (by simp)

/-! ## What a program does -/

/-- Where `pre` is owned the program returns `x` and leaves `post`. -/
def Runs (pre : List (α × Option γ)) (p : Prog α γ τ) (x : τ) (post : List (α × Option γ)) :
    Prop :=
  ∀ h others, Owns h pre others → ∃ h', p h = some (x, h') ∧ Owns h' post others

theorem Runs.pure (own : List (α × Option γ)) (x : τ) :
    Runs own (Pure.pure x : Prog α γ τ) x own := fun h _ hown => ⟨h, rfl, hown⟩

theorem Runs.bind {p : Prog α γ τ} {f : τ → Prog α γ υ} (hp : Runs pre p x mid)
    (hf : Runs mid (f x) y post) : Runs pre (p >>= f) y post := by
  intro h others hown
  obtain ⟨h₁, heq, hown₁⟩ := hp h others hown
  obtain ⟨h₂, heq₂, hown₂⟩ := hf h₁ others hown₁
  refine ⟨h₂, ?_, hown₂⟩
  rw [bind_apply, heq]
  exact heq₂

theorem Runs.perm {p : Prog α γ τ} (hp : Runs pre p x post) (hpre : own.Perm pre)
    (hpost : post.Perm own') : Runs own p x own' := by
  intro h others hown
  obtain ⟨h', heq, hown'⟩ := hp h others (hown.perm hpre)
  exact ⟨h', heq, hown'.perm hpost⟩

/-- Addresses that a program does not need. -/
theorem Runs.of_reserved {p : Prog α γ τ} (hp : Runs pre p x post)
    (hfree : ∀ a v, (a, v) ∈ own → v = none) : Runs (own ++ pre) p x post :=
  fun h others hown => hp h others ((hown.perm List.perm_append_comm).release hfree)

theorem Runs.load (l₁ : List (α × Option γ)) :
    Runs (l₁ ++ (a, some c) :: l₂) (Heap.load a) c (l₁ ++ (a, some c) :: l₂) := by
  intro h others hown
  refine ⟨h, ?_, hown⟩
  rw [Heap.load, hown.get]
  rfl

theorem Runs.store [DecidableEq α] (l₁ : List (α × Option γ)) :
    Runs (l₁ ++ (a, some c) :: l₂) (Heap.store a c') ⟨⟩ (l₁ ++ (a, some c') :: l₂) := by
  intro h others hown
  refine ⟨_, ?_, hown.set _ (some c')⟩
  rw [Heap.store, hown.get]
  rfl

theorem Runs.malloc [DecidableEq α] (l₁ : List (α × Option γ)) :
    Runs (l₁ ++ (a, none) :: l₂) (Heap.malloc (some (a, c))) (some a)
      (l₁ ++ (a, some c) :: l₂) := fun _ _ hown => ⟨_, rfl, hown.set _ (some c)⟩

theorem Runs.malloc_none [DecidableEq α] : Runs own (Heap.malloc none) none own :=
  fun _ _ hown => ⟨_, rfl, hown⟩

theorem Runs.free [DecidableEq α] (l₁ : List (α × Option γ)) :
    Runs (l₁ ++ (a, some c) :: l₂) (Heap.free (some a)) ⟨⟩ (l₁ ++ (a, none) :: l₂) := by
  intro h others hown
  refine ⟨_, ?_, hown.set _ none⟩
  simp only [Heap.free, hown.get, Option.map_some]

/-- A program that changes nothing. -/
def Reads (p : Prog α γ τ) : Prop := ∀ h r, p h = some r → r.2 = h

theorem reads_pure (x : τ) : Reads (pure x : Prog α γ τ) := by
  intro h r hr
  rw [← Option.some.inj hr]

theorem reads_wrong : Reads (wrong : Prog α γ τ) := fun _ _ hr => absurd hr (by simp [wrong])

theorem reads_load (a : α) : Reads (load a : Prog α γ γ) := by
  intro h r hr
  obtain ⟨c, -, rfl⟩ := Option.map_eq_some_iff.mp hr
  rfl

theorem Reads.bind {p : Prog α γ τ} {f : τ → Prog α γ υ} (hp : Reads p) (hf : ∀ x, Reads (f x)) :
    Reads (p >>= f) := by
  intro h r hr
  obtain ⟨⟨x, h₁⟩, hx, hr⟩ := Option.bind_eq_some_iff.mp hr
  exact (hf x h₁ r hr).trans (hp h (x, h₁) hx)

/-- **The rule of a loop** over a list: `F` is what is owned when some of it is done. -/
theorem Runs.forM (body : ι → Prog α γ PUnit) (F : List ι → List ι → List (α × Option γ))
    (xs : List ι) (hbody : ∀ done i todo, xs = done ++ i :: todo →
      Runs (F done (i :: todo)) (body i) ⟨⟩ (F (done ++ [i]) todo)) :
    Runs (F [] xs) (xs.forM body) ⟨⟩ (F xs []) := by
  have hgo : ∀ todo done, xs = done ++ todo →
      Runs (F done todo) (todo.forM body) ⟨⟩ (F xs []) := by
    intro todo
    induction todo with
    | nil =>
      intro done hxs
      rw [List.append_nil] at hxs
      subst hxs
      exact Runs.pure _ _
    | cons i todo ih =>
      intro done hxs
      refine Runs.bind (hbody done i todo hxs) (ih (done ++ [i]) ?_)
      rw [hxs, List.append_assoc]
      rfl
  exact hgo xs [] rfl

end Heap
end Pyuring
