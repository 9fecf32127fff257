import Mathlib

/-!
# Submission and completion queues

The part of a kernel ring that a program can rely on, for requests of any type.
A request is first *queued* by the program, a submit hands every queued request
over and makes it *outstanding*, the kernel completes an outstanding request and
posts its result, and the program reaps the posted results in the order in which
they were posted.  Which outstanding request completes next, and with which
result, is the kernel's choice: `complete` takes both as arguments.

A posted result carries the request it belongs to.  A program sees of it what
its own completion entry carries; the request is there so that statements can
say whose result a reaped entry is.

## What is proved

A request is in exactly one of the three places from the moment it is queued
until its result is reaped.  `pending` is the multiset of the requests in any of
them: `submit` and `complete` leave it alone, `push` adds one request and `reap`
takes one away.  Every count a program keeps of its requests is a statement
about `pending`.
-/

namespace Pyuring

variable {ρ : Type*}

/-- Requests queued, handed over, and completed but not yet reaped. -/
structure CompletionRing (ρ : Type*) where
  /-- Queued by the program, not yet handed over. -/
  queued : List ρ
  /-- Handed over, not yet completed. -/
  outstanding : List ρ
  /-- Posted results, oldest first. -/
  completed : List (ρ × ℤ)
  deriving DecidableEq, Repr

namespace CompletionRing

/-- The ring as it is created. -/
def empty : CompletionRing ρ := ⟨[], [], []⟩

/-- Queue one request, unless the submission queue has no room for it. -/
def push (room : ℕ) (q : ρ) (r : CompletionRing ρ) : Option (CompletionRing ρ) :=
  if r.queued.length < room then some { r with queued := r.queued ++ [q] } else none

/-- Hand over every queued request. -/
def submit (r : CompletionRing ρ) : CompletionRing ρ :=
  { r with queued := [], outstanding := r.outstanding ++ r.queued }

/-- The kernel completes the outstanding request at index `i`. -/
def complete (i : ℕ) (res : ℤ) (r : CompletionRing ρ) : Option (ρ × CompletionRing ρ) :=
  r.outstanding[i]?.map fun q =>
    (q, { r with outstanding := r.outstanding.eraseIdx i, completed := r.completed ++ [(q, res)] })

/-- The kernel posts a result for the outstanding request at index `i`, which stays
outstanding as `rest` of what it was. -/
def post (i : ℕ) (res : ℤ) (rest : ρ → ρ) (r : CompletionRing ρ) :
    Option (ρ × CompletionRing ρ) :=
  r.outstanding[i]?.map fun q =>
    (q, { r with
      outstanding := r.outstanding.set i (rest q), completed := r.completed ++ [(q, res)] })

/-- Reap the oldest posted result. -/
def reap (r : CompletionRing ρ) : Option ((ρ × ℤ) × CompletionRing ρ) :=
  match r.completed with
  | [] => none
  | c :: cs => some (c, { r with completed := cs })

/-- Drop the `n` oldest posted results. -/
def advance (n : ℕ) (r : CompletionRing ρ) : CompletionRing ρ :=
  { r with completed := r.completed.drop n }

/-- Every request that has been queued and whose result has not been reaped. -/
def pending (r : CompletionRing ρ) : Multiset ρ :=
  (r.queued : Multiset ρ) + r.outstanding + r.completed.map Prod.fst

/-- Nothing queued, nothing outstanding, nothing left to reap. -/
def Idle (r : CompletionRing ρ) : Prop :=
  r.queued = [] ∧ r.outstanding = [] ∧ r.completed = []

instance (r : CompletionRing ρ) : Decidable r.Idle :=
  inferInstanceAs (Decidable (_ ∧ _ ∧ _))

@[simp] theorem queued_empty : (empty : CompletionRing ρ).queued = [] := rfl
@[simp] theorem outstanding_empty : (empty : CompletionRing ρ).outstanding = [] := rfl
@[simp] theorem completed_empty : (empty : CompletionRing ρ).completed = [] := rfl
@[simp] theorem pending_empty : (empty : CompletionRing ρ).pending = 0 := rfl

@[simp] theorem queued_submit (r : CompletionRing ρ) : r.submit.queued = [] := rfl

@[simp] theorem outstanding_submit (r : CompletionRing ρ) :
    r.submit.outstanding = r.outstanding ++ r.queued := rfl

@[simp] theorem completed_submit (r : CompletionRing ρ) :
    r.submit.completed = r.completed := rfl

@[simp] theorem pending_submit (r : CompletionRing ρ) : r.submit.pending = r.pending := by
  simp only [pending, queued_submit, outstanding_submit, completed_submit, Multiset.coe_nil,
    zero_add, ← Multiset.coe_add]
  rw [add_comm (r.outstanding : Multiset ρ)]

theorem push_eq_some {room : ℕ} {q : ρ} {r r' : CompletionRing ρ} :
    r.push room q = some r' ↔
      r.queued.length < room ∧ r' = { r with queued := r.queued ++ [q] } := by
  unfold push
  split
  · next h => simp [h, eq_comm]
  · next h => simp [h]

theorem push_eq_none {room : ℕ} {q : ρ} {r : CompletionRing ρ} :
    r.push room q = none ↔ room ≤ r.queued.length := by
  unfold push
  split
  · next h => simp [Nat.not_le.mpr h]
  · next h => simp [Nat.not_lt.mp h]

theorem pending_push {room : ℕ} {q : ρ} {r r' : CompletionRing ρ}
    (h : r.push room q = some r') : r'.pending = q ::ₘ r.pending := by
  obtain ⟨_, rfl⟩ := push_eq_some.mp h
  simp only [pending, ← Multiset.coe_add, Multiset.coe_singleton, ← Multiset.singleton_add]
  rw [add_comm (r.queued : Multiset ρ), add_assoc, add_assoc, add_assoc]

theorem complete_eq_some {i : ℕ} {res : ℤ} {r r' : CompletionRing ρ} {q : ρ} :
    r.complete i res = some (q, r') ↔
      r.outstanding[i]? = some q ∧
      r' = { r with
        outstanding := r.outstanding.eraseIdx i, completed := r.completed ++ [(q, res)] } := by
  unfold complete
  rw [Option.map_eq_some_iff]
  constructor
  · rintro ⟨q', hq', h⟩
    obtain ⟨rfl, rfl⟩ := Prod.mk.inj h
    exact ⟨hq', rfl⟩
  · rintro ⟨hq, rfl⟩
    exact ⟨q, hq, rfl⟩

theorem post_eq_some {i : ℕ} {res : ℤ} {rest : ρ → ρ} {r r' : CompletionRing ρ} {q : ρ} :
    r.post i res rest = some (q, r') ↔
      r.outstanding[i]? = some q ∧
      r' = { r with
        outstanding := r.outstanding.set i (rest q), completed := r.completed ++ [(q, res)] } := by
  unfold post
  rw [Option.map_eq_some_iff]
  constructor
  · rintro ⟨q', hq', h⟩
    obtain ⟨rfl, rfl⟩ := Prod.mk.inj h
    exact ⟨hq', rfl⟩
  · rintro ⟨hq, rfl⟩
    exact ⟨q, hq, rfl⟩

/-- Taking an entry out of a list leaves the other entries. -/
theorem cons_eraseIdx {l : List ρ} {i : ℕ} {q : ρ} (h : l[i]? = some q) :
    (q ::ₘ (l.eraseIdx i : Multiset ρ)) = l := by
  obtain ⟨hi, rfl⟩ := List.getElem?_eq_some_iff.mp h
  rw [Multiset.cons_coe, Multiset.coe_eq_coe]
  exact List.getElem_cons_eraseIdx_perm hi

theorem sum_map_eraseIdx {l : List ρ} {i : ℕ} {q : ρ} (h : l[i]? = some q) (f : ρ → ℕ) :
    (l.map f).sum = f q + ((l.eraseIdx i).map f).sum := by
  have hsum := congrArg (fun m : Multiset ρ => (m.map f).sum) (cons_eraseIdx h)
  simpa using hsum.symm

/-- The requests other than the one the kernel completes. -/
theorem pending_eq_cons_of_complete {i : ℕ} {res : ℤ} {r r' : CompletionRing ρ} {q : ρ}
    (h : r.complete i res = some (q, r')) :
    r.pending = q ::ₘ ((r'.queued : Multiset ρ) + r'.outstanding + r.completed.map Prod.fst) := by
  obtain ⟨hq, rfl⟩ := complete_eq_some.mp h
  simp only [pending]
  rw [← cons_eraseIdx hq, ← Multiset.singleton_add, ← Multiset.singleton_add]
  ac_rfl

theorem pending_complete {i : ℕ} {res : ℤ} {r r' : CompletionRing ρ} {q : ρ}
    (h : r.complete i res = some (q, r')) : r'.pending = r.pending := by
  obtain ⟨hq, rfl⟩ := complete_eq_some.mp h
  simp only [pending, List.map_append, List.map_cons, List.map_nil, ← Multiset.coe_add,
    Multiset.coe_singleton]
  rw [← cons_eraseIdx hq, ← Multiset.singleton_add]
  ac_rfl

/-- A request for which a result was posted is there twice: for the result, and for what is
left of it. -/
theorem pending_post {i : ℕ} {res : ℤ} {rest : ρ → ρ} {r r' : CompletionRing ρ} {q : ρ}
    (h : r.post i res rest = some (q, r')) : r'.pending = rest q ::ₘ r.pending := by
  obtain ⟨hq, rfl⟩ := post_eq_some.mp h
  obtain ⟨hi, -⟩ := List.getElem?_eq_some_iff.mp hq
  have hset : ((r.outstanding.set i (rest q) : List ρ) : Multiset ρ) =
      rest q ::ₘ (r.outstanding.eraseIdx i : Multiset ρ) :=
    Multiset.coe_eq_coe.mpr (List.set_perm_cons_eraseIdx hi _)
  rw [pending, pending, hset, ← cons_eraseIdx hq, List.map_append, ← Multiset.coe_add]
  simp only [List.map_cons, List.map_nil, Multiset.coe_singleton, ← Multiset.singleton_add]
  ac_rfl

theorem mem_outstanding_of_complete {i : ℕ} {res : ℤ} {r r' : CompletionRing ρ} {q : ρ}
    (h : r.complete i res = some (q, r')) : q ∈ r.outstanding :=
  List.mem_of_getElem? (complete_eq_some.mp h).1

theorem reap_eq_some {c : ρ × ℤ} {r r' : CompletionRing ρ} :
    r.reap = some (c, r') ↔
      ∃ cs, r.completed = c :: cs ∧ r' = { r with completed := cs } := by
  unfold reap
  cases hc : r.completed with
  | nil => simp
  | cons d ds =>
    simp only [Option.some.injEq, Prod.mk.injEq, List.cons.injEq]
    constructor
    · rintro ⟨rfl, rfl⟩
      exact ⟨ds, ⟨rfl, rfl⟩, rfl⟩
    · rintro ⟨cs, ⟨rfl, rfl⟩, rfl⟩
      exact ⟨rfl, rfl⟩

theorem pending_reap {c : ρ × ℤ} {r r' : CompletionRing ρ} (h : r.reap = some (c, r')) :
    r.pending = c.1 ::ₘ r'.pending := by
  obtain ⟨cs, hcs, rfl⟩ := reap_eq_some.mp h
  simp only [pending, hcs, List.map_cons, ← Multiset.cons_coe, ← Multiset.singleton_add]
  ac_rfl

/-- Advancing over what was taken in a batch of at most `n`. -/
theorem advance_length_take (n : ℕ) (r : CompletionRing ρ) :
    r.advance (r.completed.take n).length = r.advance n := by
  simp only [advance, List.length_take, ← List.drop_eq_drop_min]

theorem pending_advance (n : ℕ) (r : CompletionRing ρ) :
    r.pending = (r.completed.take n).map Prod.fst + (r.advance n).pending := by
  have h : (r.completed.map Prod.fst : Multiset ρ) =
      (r.completed.take n).map Prod.fst + (r.completed.drop n).map Prod.fst := by
    rw [Multiset.coe_add, ← List.map_append, List.take_append_drop]
  simp only [pending, advance, h]
  ac_rfl

theorem mem_pending {q : ρ} {r : CompletionRing ρ} :
    q ∈ r.pending ↔ q ∈ r.queued ∨ q ∈ r.outstanding ∨ ∃ res, (q, res) ∈ r.completed := by
  simp [pending]

theorem pending_eq_zero {r : CompletionRing ρ} : r.pending = 0 ↔ r.Idle := by
  simp [pending, Idle]

theorem card_pending (r : CompletionRing ρ) :
    Multiset.card r.pending = r.queued.length + r.outstanding.length + r.completed.length := by
  simp [pending, Nat.add_assoc]

/-- When a key tells pending requests apart, it tells the first one from the
rest. -/
theorem key_ne_of_nodup {κ : Type*} {key : ρ → κ} {q q' : ρ} {m : Multiset ρ}
    (h : ((q ::ₘ m).map key).Nodup) (hq' : q' ∈ m) : key q' ≠ key q := by
  rw [Multiset.map_cons, Multiset.nodup_cons] at h
  intro heq
  exact h.1 (heq ▸ Multiset.mem_map_of_mem key hq')

end CompletionRing
end Pyuring
