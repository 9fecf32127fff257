import Mathlib

/-!
# Pieces that tile a range

A transfer of a file is cut into pieces, each asked for at an offset and with a
length, and each moved in part or in full.  The pieces are reserved in order, so
they tile a range: `Tiles a cs b` says that the list `cs` starts at `a`, that
each piece starts where the one before it ends, that none is empty and that the
last one ends at `b`.

## What is proved

`Tiles.covered_iff` is the point of the file.  Count the bytes moved by all
pieces together, and ask whether the pieces moved exactly the first bytes of the
range, as many as were counted.  They did exactly when only the tail is short:
once a piece was moved in part, no later piece moved anything.
-/

namespace Pyuring

/-- A piece of a file that was asked for, and how many bytes of it were moved. -/
structure Span where
  off : ℕ
  len : ℕ
  moved : ℕ
  deriving DecidableEq, Repr

namespace Span

/-- Position `p` was moved with the piece. -/
def Covers (c : Span) (p : ℕ) : Prop := c.off ≤ p ∧ p < c.off + c.moved

instance (c : Span) (p : ℕ) : Decidable (c.Covers p) :=
  inferInstanceAs (Decidable (_ ∧ _))

end Span

/-- The pieces start at `a`, follow one another without a gap and end at `b`. -/
def Tiles : ℕ → List Span → ℕ → Prop
  | a, [], b => a = b
  | a, c :: cs, b => c.off = a ∧ 0 < c.len ∧ Tiles (a + c.len) cs b

namespace Span

/-- The bytes moved by all pieces together. -/
def total (cs : List Span) : ℕ := (cs.map Span.moved).sum

/-- Record that the piece at `off` moved `n` bytes. -/
def setMoved (off n : ℕ) (cs : List Span) : List Span :=
  cs.map fun c => if c.off = off then { c with moved := n } else c

/-- Once a piece came back short, no later piece moved anything. -/
def ShortOnlyAtTail (cs : List Span) : Prop :=
  cs.Pairwise fun c d => c.moved < c.len → d.moved = 0

instance (cs : List Span) : Decidable (ShortOnlyAtTail cs) :=
  inferInstanceAs (Decidable (List.Pairwise _ _))

@[simp] theorem total_nil : total [] = 0 := rfl

@[simp] theorem total_cons (c : Span) (cs : List Span) :
    total (c :: cs) = c.moved + total cs := by
  simp [total]

@[simp] theorem total_append (cs ds : List Span) : total (cs ++ ds) = total cs + total ds := by
  simp [total]

/-- The offsets and lengths that were asked for. -/
def asked (cs : List Span) : List (ℕ × ℕ) := cs.map fun c => (c.off, c.len)

@[simp] theorem asked_nil : asked [] = [] := rfl

@[simp] theorem asked_append (cs ds : List Span) : asked (cs ++ ds) = asked cs ++ asked ds :=
  List.map_append

@[simp] theorem asked_singleton (c : Span) : asked [c] = [(c.off, c.len)] := rfl

@[simp] theorem asked_setMoved (off n : ℕ) (cs : List Span) :
    asked (setMoved off n cs) = asked cs := by
  simp only [asked, setMoved, List.map_map]
  refine List.map_congr_left ?_
  intro c _
  simp only [Function.comp]
  split <;> rfl

theorem mem_setMoved {off n : ℕ} {cs : List Span} {c : Span} :
    c ∈ setMoved off n cs ↔
      ∃ d ∈ cs, c = if d.off = off then { d with moved := n } else d := by
  simp only [setMoved, List.mem_map, eq_comm]

theorem off_of_ite {off n : ℕ} {d : Span} :
    (if d.off = off then { d with moved := n } else d).off = d.off := by
  split <;> rfl

theorem len_of_ite {off n : ℕ} {d : Span} :
    (if d.off = off then { d with moved := n } else d).len = d.len := by
  split <;> rfl

theorem total_eq_zero {cs : List Span} : total cs = 0 ↔ ∀ c ∈ cs, c.moved = 0 := by
  induction cs with
  | nil => simp
  | cons c cs ih => simp [ih]

end Span

namespace Tiles

open Pyuring.Span

variable {a b : ℕ} {cs : List Span}

@[simp] theorem nil_iff : Tiles a [] b ↔ a = b := Iff.rfl

theorem snoc (h : Tiles a cs b) {len m : ℕ} (hlen : 0 < len) :
    Tiles a (cs ++ [⟨b, len, m⟩]) (b + len) := by
  induction cs generalizing a with
  | nil =>
    rw [nil_iff] at h
    subst h
    exact ⟨rfl, hlen, rfl⟩
  | cons c cs ih => exact ⟨h.1, h.2.1, ih h.2.2⟩

theorem setMoved (h : Tiles a cs b) (off n : ℕ) : Tiles a (setMoved off n cs) b := by
  induction cs generalizing a with
  | nil => exact h
  | cons c cs ih =>
    refine ⟨?_, ?_, ?_⟩
    · rw [off_of_ite]
      exact h.1
    · rw [len_of_ite]
      exact h.2.1
    · rw [len_of_ite]
      exact ih h.2.2

theorem le (h : Tiles a cs b) : a ≤ b := by
  induction cs generalizing a with
  | nil => exact Nat.le_of_eq h
  | cons c cs ih => exact Nat.le_trans (Nat.le_add_right a c.len) (ih h.2.2)

/-- Every piece lies in the range and is not empty. -/
theorem bounds (h : Tiles a cs b) {c : Span} (hc : c ∈ cs) :
    a ≤ c.off ∧ c.off + c.len ≤ b ∧ 0 < c.len := by
  induction cs generalizing a with
  | nil => exact absurd hc List.not_mem_nil
  | cons d cs ih =>
    obtain ⟨hd, hlen, hrest⟩ := h
    rcases List.mem_cons.mp hc with rfl | hc
    · have := hrest.le
      omega
    · have := ih hrest hc
      omega

theorem off_lt (h : Tiles a cs b) {c : Span} (hc : c ∈ cs) : c.off < b := by
  have := h.bounds hc
  omega

/-- Pieces later in the list lie further on in the file. -/
theorem pairwise (h : Tiles a cs b) : cs.Pairwise fun c d => c.off + c.len ≤ d.off := by
  induction cs generalizing a with
  | nil => exact List.Pairwise.nil
  | cons c cs ih =>
    refine List.pairwise_cons.mpr ⟨?_, ih h.2.2⟩
    intro d hd
    have := (h.2.2.bounds hd).1
    rw [h.1]
    omega

/-- A piece that starts before another ends before it. -/
theorem end_le_off (h : Tiles a cs b) {c d : Span} (hc : c ∈ cs) (hd : d ∈ cs)
    (hlt : c.off < d.off) : c.off + c.len ≤ d.off := by
  induction cs generalizing a with
  | nil => exact absurd hc List.not_mem_nil
  | cons e cs ih =>
    obtain ⟨he, hlen, hrest⟩ := h
    rcases List.mem_cons.mp hc with rfl | hc' <;> rcases List.mem_cons.mp hd with rfl | hd'
    · exact absurd hlt (Nat.lt_irrefl _)
    · have := (hrest.bounds hd').1
      omega
    · have := (hrest.bounds hc').1
      omega
    · exact ih hrest hc' hd'

/-- What was moved has no part in the tiling. -/
theorem of_asked (h : Tiles a cs b) {ds : List Span} (hasked : asked ds = asked cs) :
    Tiles a ds b := by
  induction cs generalizing a ds with
  | nil =>
    rw [asked_nil, asked, List.map_eq_nil_iff] at hasked
    rw [hasked]
    exact h
  | cons c cs ih =>
    obtain ⟨d, ds, rfl, hd, hrest⟩ := List.map_eq_cons_iff.mp hasked
    obtain ⟨hoff, hlen⟩ := Prod.mk.inj hd
    exact ⟨hoff.trans h.1, hlen ▸ h.2.1, hlen ▸ ih h.2.2 hrest⟩

/-- A piece is determined by its offset. -/
theorem eq_of_off_eq (h : Tiles a cs b) {c d : Span} (hc : c ∈ cs) (hd : d ∈ cs)
    (hoff : c.off = d.off) : c = d := by
  induction cs generalizing a with
  | nil => exact absurd hc List.not_mem_nil
  | cons e cs ih =>
    obtain ⟨he, hlen, hrest⟩ := h
    rcases List.mem_cons.mp hc with rfl | hc' <;> rcases List.mem_cons.mp hd with rfl | hd'
    · rfl
    · have := (hrest.bounds hd').1
      omega
    · have := (hrest.bounds hc').1
      omega
    · exact ih hrest hc' hd'

/-- The pieces after recording a move of `c`. -/
theorem mem_setMoved_iff (h : Tiles a cs b) {c : Span} (hc : c ∈ cs) {n : ℕ} {d : Span} :
    d ∈ Span.setMoved c.off n cs ↔ d = { c with moved := n } ∨ d ∈ cs ∧ d.off ≠ c.off := by
  rw [mem_setMoved]
  constructor
  · rintro ⟨e, he, rfl⟩
    by_cases hoff : e.off = c.off
    · rw [if_pos hoff, h.eq_of_off_eq he hc hoff]
      exact Or.inl rfl
    · rw [if_neg hoff]
      exact Or.inr ⟨he, hoff⟩
  · rintro (rfl | ⟨hd, hoff⟩)
    · exact ⟨c, hc, by rw [if_pos rfl]⟩
    · exact ⟨d, hd, by rw [if_neg hoff]⟩

/-- The positions covered after recording a move of a piece that had moved
nothing. -/
theorem exists_covers_setMoved_iff (h : Tiles a cs b) {c : Span} (hc : c ∈ cs)
    (hm : c.moved = 0) (n p : ℕ) :
    (∃ d ∈ Span.setMoved c.off n cs, d.Covers p) ↔
      (c.off ≤ p ∧ p < c.off + n) ∨ ∃ d ∈ cs, d.Covers p := by
  constructor
  · rintro ⟨d, hd, hdp⟩
    rcases (h.mem_setMoved_iff hc).mp hd with rfl | ⟨hd, _⟩
    · exact Or.inl hdp
    · exact Or.inr ⟨d, hd, hdp⟩
  · rintro (hp | ⟨d, hd, hdp⟩)
    · exact ⟨{ c with moved := n }, (h.mem_setMoved_iff hc).mpr (Or.inl rfl), hp⟩
    · refine ⟨d, (h.mem_setMoved_iff hc).mpr (Or.inr ⟨hd, ?_⟩), hdp⟩
      intro hoff
      obtain rfl := h.eq_of_off_eq hd hc hoff
      have h₁ := hdp.1
      have h₂ := hdp.2
      omega

/-- Every position of the range lies in a piece. -/
theorem exists_mem (h : Tiles a cs b) {p : ℕ} (hap : a ≤ p) (hpb : p < b) :
    ∃ c ∈ cs, c.off ≤ p ∧ p < c.off + c.len := by
  induction cs generalizing a with
  | nil =>
    rw [nil_iff] at h
    omega
  | cons c cs ih =>
    obtain ⟨hc, _, hrest⟩ := h
    rcases Nat.lt_or_ge p (a + c.len) with hp | hp
    · exact ⟨c, List.mem_cons_self, by omega, by omega⟩
    · obtain ⟨d, hd, hdp⟩ := ih hrest hp
      exact ⟨d, List.mem_cons_of_mem c hd, hdp⟩

/-- Recording a move of a piece that had moved nothing adds that move. -/
theorem total_setMoved (h : Tiles a cs b) {c : Span} (hc : c ∈ cs) (hm : c.moved = 0) (n : ℕ) :
    total (Span.setMoved c.off n cs) = total cs + n := by
  induction cs generalizing a with
  | nil => exact absurd hc List.not_mem_nil
  | cons d cs ih =>
    obtain ⟨hd, hlen, hrest⟩ := h
    have hsplit : Span.setMoved c.off n (d :: cs) =
        (if d.off = c.off then { d with moved := n } else d) :: Span.setMoved c.off n cs := rfl
    rw [hsplit, total_cons, total_cons]
    rcases List.mem_cons.mp hc with rfl | hc'
    · have hrest' : Span.setMoved c.off n cs = cs := by
        refine (List.map_congr_left ?_).trans (List.map_id cs)
        intro e he
        have := (hrest.bounds he).1
        rw [if_neg (by omega), id]
      rw [hrest', if_pos rfl]
      simp only [hm]
      omega
    · have := (hrest.bounds hc').1
      rw [if_neg (by omega), ih hrest hc']
      omega

theorem sum_len (h : Tiles a cs b) : a + (cs.map Span.len).sum = b := by
  induction cs generalizing a with
  | nil =>
    rw [nil_iff] at h
    simp [h]
  | cons c cs ih =>
    have hrest := ih h.2.2
    rw [List.map_cons, List.sum_cons]
    omega

/-- The pieces move at most the range. -/
theorem total_le (h : Tiles a cs b) (hle : ∀ c ∈ cs, c.moved ≤ c.len) : a + total cs ≤ b := by
  induction cs generalizing a with
  | nil =>
    rw [nil_iff] at h
    simp [h]
  | cons c cs ih =>
    have hrest := ih h.2.2 fun d hd => hle d (List.mem_cons_of_mem c hd)
    have := hle c List.mem_cons_self
    rw [total_cons]
    omega

/-- When the whole range was moved, every piece was moved in full. -/
theorem moved_eq_of_total (h : Tiles a cs b) (hle : ∀ c ∈ cs, c.moved ≤ c.len)
    (htotal : a + total cs = b) : ∀ c ∈ cs, c.moved = c.len := by
  induction cs generalizing a with
  | nil => exact fun c hc => absurd hc List.not_mem_nil
  | cons c cs ih =>
    obtain ⟨_, _, hrest⟩ := h
    have hle' := fun d hd => hle d (List.mem_cons_of_mem c hd)
    have := total_le hrest hle'
    have := hle c List.mem_cons_self
    rw [total_cons] at htotal
    intro d hd
    rcases List.mem_cons.mp hd with rfl | hd
    · omega
    · exact ih hrest hle' (by omega) d hd

/-- **Which transfers are a prefix.**  The bytes moved are the first bytes of the
range, as many as were moved, exactly when only the tail came back short. -/
theorem covered_iff (h : Tiles a cs b) (hle : ∀ c ∈ cs, c.moved ≤ c.len) :
    (∀ p, a ≤ p → p < a + total cs → ∃ c ∈ cs, c.Covers p) ↔ ShortOnlyAtTail cs := by
  induction cs generalizing a with
  | nil => exact ⟨fun _ => List.Pairwise.nil, fun _ p hp hp' => absurd hp' (by simp; omega)⟩
  | cons c cs ih =>
    obtain ⟨hc, hlen, hrest⟩ := h
    have hle' : ∀ d ∈ cs, d.moved ≤ d.len := fun d hd => hle d (List.mem_cons_of_mem c hd)
    have hcle := hle c List.mem_cons_self
    have hlater : ∀ d ∈ cs, a + c.len ≤ d.off := fun d hd => (hrest.bounds hd).1
    rw [total_cons, ShortOnlyAtTail, List.pairwise_cons]
    constructor
    · intro hcov
      -- what follows the first piece moved nothing, if that piece was short
      have htail : c.moved < c.len → ∀ d ∈ cs, d.moved = 0 := by
        intro hshort
        by_contra hne
        have hpos : 0 < total cs := by
          rcases Nat.eq_zero_or_pos (total cs) with h0 | h0
          · exact absurd (total_eq_zero.mp h0) hne
          · exact h0
        obtain ⟨d, hd, hdp⟩ := hcov (a + c.moved) (by omega) (by omega)
        rcases List.mem_cons.mp hd with rfl | hd'
        · have := hdp.2
          omega
        · have := hlater d hd'
          have := hdp.1
          omega
      refine ⟨fun d hd hshort => htail hshort d hd, ?_⟩
      rcases Nat.lt_or_ge c.moved c.len with hshort | hfull
      · exact (List.pairwise_of_forall_mem_list fun d _ e he _ => htail hshort e he)
      · refine (ih hrest hle').mp ?_
        intro p hp hp'
        obtain ⟨d, hd, hdp⟩ := hcov p (by omega) (by omega)
        rcases List.mem_cons.mp hd with rfl | hd'
        · have := hdp.2
          omega
        · exact ⟨d, hd', hdp⟩
    · rintro ⟨htail, hpair⟩ p hp hp'
      rcases Nat.lt_or_ge p (a + c.moved) with hin | hout
      · exact ⟨c, List.mem_cons_self, by omega, by omega⟩
      · rcases Nat.lt_or_ge c.moved c.len with hshort | hfull
        · have h0 := total_eq_zero.mpr fun d hd => htail d hd hshort
          omega
        · obtain ⟨d, hd, hdp⟩ := (ih hrest hle').mpr hpair p (by omega) (by omega)
          exact ⟨d, List.mem_cons_of_mem c hd, hdp⟩

/-- The order of the pieces is that of their offsets. -/
theorem shortOnlyAtTail_iff (h : Tiles a cs b) : ShortOnlyAtTail cs ↔
    ∀ c ∈ cs, ∀ d ∈ cs, c.off < d.off → c.moved < c.len → d.moved = 0 := by
  constructor
  · intro hshort
    induction cs generalizing a with
    | nil => exact fun c hc => absurd hc List.not_mem_nil
    | cons e cs ih =>
      obtain ⟨he, hlen, hrest⟩ := h
      obtain ⟨hfirst, hpair⟩ := List.pairwise_cons.mp hshort
      intro c hc d hd hlt
      rcases List.mem_cons.mp hd with rfl | hd'
      · rcases List.mem_cons.mp hc with rfl | hc'
        · exact absurd hlt (Nat.lt_irrefl _)
        · have := (hrest.bounds hc').1
          omega
      · rcases List.mem_cons.mp hc with rfl | hc'
        · exact hfirst d hd'
        · exact ih hrest hpair c hc' d hd' hlt
  · intro hall
    refine h.pairwise.imp_of_mem ?_
    intro c d hc hd hle
    have hpos := (h.bounds hc).2.2
    exact hall c hc d hd (by omega)

/-- When only the tail came back short, what was moved ends where the count
ends. -/
theorem end_le_of_shortOnlyAtTail (h : Tiles a cs b) (hle : ∀ c ∈ cs, c.moved ≤ c.len)
    (hshort : ShortOnlyAtTail cs) {c : Span} (hc : c ∈ cs) (hpos : 0 < c.moved) :
    c.off + c.moved ≤ a + total cs := by
  induction cs generalizing a with
  | nil => exact absurd hc List.not_mem_nil
  | cons d cs ih =>
    obtain ⟨hd, hlen, hrest⟩ := h
    obtain ⟨htail, hpair⟩ := List.pairwise_cons.mp hshort
    rw [total_cons]
    rcases List.mem_cons.mp hc with rfl | hc'
    · omega
    · have hfull : ¬ d.moved < d.len := fun hlt => by
        have := htail c hc' hlt
        omega
      have := hle d List.mem_cons_self
      have := ih hrest (fun e he => hle e (List.mem_cons_of_mem d he)) hpair hc'
      omega

/-- **Each position once.**  Pieces that were moved in full cover every position of the
range exactly once, and no other. -/
theorem countP_covers (h : Tiles a cs b) (hfull : ∀ c ∈ cs, c.moved = c.len) (p : ℕ) :
    cs.countP (fun c => decide (c.Covers p)) = if a ≤ p ∧ p < b then 1 else 0 := by
  induction cs generalizing a with
  | nil =>
    rw [nil_iff] at h
    rw [if_neg (by omega)]
    rfl
  | cons c cs ih =>
    obtain ⟨hc, hlen, hrest⟩ := h
    have hle := hrest.le
    have hmoved := hfull c List.mem_cons_self
    rw [List.countP_cons, ih hrest fun d hd => hfull d (List.mem_cons_of_mem c hd)]
    simp only [Span.Covers, hc, hmoved, decide_eq_true_eq]
    split
    · split
      · omega
      · rw [if_pos (by omega)]
    · split
      · rw [if_pos (by omega)]
      · rw [if_neg (by omega)]

end Tiles
end Pyuring
