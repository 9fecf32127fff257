import Pyuring.AsyncFileAppending

/-!
# Several objects on one file

Any number of `AsyncFile`s may be open on one path, each with a descriptor, a ring and a lock of
its own.  Nothing keeps a call on one of them from running between the slices of a call on
another, and the kernel carries out their requests in any order.  `World.step` runs one of them
on the contents that all share.

Where all of them were opened for reading or for appending, no call loses bytes to another one.
The file is what it was and then one block for each write that the kernel has carried out
(`Appended`): no call has two blocks, a call that returned a count has a block of that length,
and a read returns a piece of the file.  Blocks are never moved, so a call that has returned
comes before every call that is made later, on whichever object (`appends_in_order`).
-/

namespace Pyuring
namespace AsyncFile

open Trace

/-- What a write of a call has put into the file. -/
structure Block where
  handle : ℕ
  call : ℕ
  bytes : List UInt8
  deriving DecidableEq, Repr

/-- The contents of the file, the objects in the order in which they were opened, and the blocks
written in the order in which they were. -/
structure World where
  content : List UInt8
  handles : List Handle
  blocks : List Block

/-- One more object is opened, or one of them takes a step. -/
inductive WorldEvent where
  | aenter (mode : Mode)
  | run (j : ℕ) (e : Event)
  deriving DecidableEq, Repr

namespace World

/-- Nothing is open yet. -/
def start (content : List UInt8) : World := ⟨content, [], []⟩

def step (w : World) : WorldEvent → Option World
  | .aenter mode =>
    let s := AsyncFile.aenter (modeToFlags mode) true w.content
    some { w with content := s.file, handles := w.handles ++ [⟨modeToFlags mode, s, fun _ => 0⟩] }
  | .run j e => match w.handles[j]? with
    | none => none
    | some h => (AsyncFile.step h.flags (h.on w.content) e).map fun t => {
        content := t.file
        handles := w.handles.set j ⟨h.flags, t, h.callerAfter e⟩
        blocks := w.blocks ++ (h.written e).map fun b => ⟨j, b.1, b.2⟩ }

end World

/-- Objects are opened for reading or for appending. -/
def OpensForAppending (_ : World) : WorldEvent → Prop
  | .aenter mode => (modeToFlags mode).Appends
  | .run _ _ => True

instance : ∀ (w : World) (e : WorldEvent), Decidable (OpensForAppending w e)
  | _, .aenter mode => inferInstanceAs (Decidable ((modeToFlags mode).trunc = false ∧ (_ → _)))
  | _, .run _ _ => inferInstanceAs (Decidable True)

/-- The file is what it was, and then a block for each write.  No call has two blocks; a block
is what a call has written, or a part of it from its start; a call that returned a count has a
block of that length, and a read returns a piece of the file. -/
structure Appended (content : List UInt8) (w : World) : Prop where
  content : w.content = content ++ w.blocks.flatMap Block.bytes
  once : (w.blocks.map fun b => (b.handle, b.call)).Nodup
  owned : ∀ b ∈ w.blocks, ∃ (h : Handle) (data : List UInt8), w.handles[b.handle]? = some h ∧
    b.call < h.state.calls ∧ h.state.op b.call = .write data ∧ b.bytes <+: data
  counted : ∀ (j : ℕ) (h : Handle) (u n : ℕ), w.handles[j]? = some h →
    h.state.task u = .done (.count n) → h.state.op u = .write [] ∧ n = 0 ∨
      ∃ b ∈ w.blocks, b.handle = j ∧ b.call = u ∧ b.bytes.length = n
  reads : ∀ (j : ℕ) (h : Handle) (u : ℕ) (out : List UInt8), w.handles[j]? = some h →
    h.state.task u = .done (.bytes out) → ∃ p, out <+: w.content.drop p

/-- The call has been made. -/
def World.Called (w : World) (j u : ℕ) : Prop :=
  ∃ h : Handle, w.handles[j]? = some h ∧ u < h.state.calls

/-! ## The world -/

/-- The blocks of one object. -/
def World.blocksOf (w : World) (j : ℕ) : List (ℕ × List UInt8) :=
  (w.blocks.filter (·.handle = j)).map fun b => (b.call, b.bytes)

/-- What holds of all objects together. -/
structure Coherent (content : List UInt8) (w : World) : Prop where
  content : w.content = content ++ w.blocks.flatMap Block.bytes
  tended : ∀ (j : ℕ) (h : Handle), w.handles[j]? = some h →
    h.flags.Appends ∧ Tended h.caller (w.blocksOf j) (h.on w.content)
  known : ∀ b ∈ w.blocks, b.handle < w.handles.length

variable {content : List UInt8} {w x : World}

theorem mem_blocksOf {j u : ℕ} {bytes : List UInt8} :
    (u, bytes) ∈ w.blocksOf j ↔ ⟨j, u, bytes⟩ ∈ w.blocks := by
  simp only [World.blocksOf, List.mem_map, List.mem_filter, decide_eq_true_eq, Prod.mk.injEq]
  constructor
  · rintro ⟨⟨k, v, data⟩, ⟨hmem, rfl⟩, rfl, rfl⟩
    exact hmem
  · exact fun hmem => ⟨_, ⟨hmem, rfl⟩, rfl, rfl⟩

theorem World.step_cases {e : WorldEvent} (ht : w.step e = some x) :
    (∃ mode, e = .aenter mode ∧ x = { w with
      content := (AsyncFile.aenter (modeToFlags mode) true w.content).file
      handles := w.handles ++ [⟨modeToFlags mode,
        AsyncFile.aenter (modeToFlags mode) true w.content, fun _ => 0⟩] }) ∨
    ∃ j f h t, e = .run j f ∧ w.handles[j]? = some h ∧
      AsyncFile.step h.flags (h.on w.content) f = some t ∧ x = {
        content := t.file
        handles := w.handles.set j ⟨h.flags, t, h.callerAfter f⟩
        blocks := w.blocks ++ (h.written f).map fun b => ⟨j, b.1, b.2⟩ } := by
  cases e with
  | aenter mode => exact Or.inl ⟨mode, rfl, (Option.some.inj ht).symm⟩
  | run j f =>
    unfold World.step at ht
    simp only at ht
    split at ht
    · exact absurd ht (by simp)
    · next h hj =>
      obtain ⟨t, hstep, rfl⟩ := Option.map_eq_some_iff.mp ht
      exact Or.inr ⟨j, f, h, t, rfl, hj, hstep, rfl⟩

theorem coherent_start (content : List UInt8) : Coherent content (World.start content) where
  content := (List.append_nil content).symm
  tended j h hj := absurd hj (by simp [World.start])
  known b hb := absurd hb List.not_mem_nil

/-- Another object is opened. -/
theorem Coherent.aenter (h : Coherent content w) {mode : Mode}
    (happends : (modeToFlags mode).Appends) : Coherent content { w with
      content := (AsyncFile.aenter (modeToFlags mode) true w.content).file
      handles := w.handles ++ [⟨modeToFlags mode,
        AsyncFile.aenter (modeToFlags mode) true w.content, fun _ => 0⟩] } := by
  obtain ⟨hnew, hfile⟩ := tended_aenter (c := fun _ => 0) happends w.content
  rw [hfile]
  refine ⟨h.content, ?_, ?_⟩
  · intro k hk hget
    rw [List.getElem?_append] at hget
    split at hget
    · exact h.tended k hk hget
    · next hle =>
      obtain ⟨hlt, rfl⟩ := List.getElem?_eq_some_iff.mp hget
      have hlength : k = w.handles.length := by
        rw [List.length_singleton] at hlt
        omega
      have hnone : w.blocksOf w.handles.length = [] := by
        unfold World.blocksOf
        rw [List.map_eq_nil_iff, List.filter_eq_nil_iff]
        intro b hb heq
        exact Nat.ne_of_lt (h.known b hb) (of_decide_eq_true heq)
      subst hlength
      simp only [Nat.sub_self, List.getElem_cons_zero]
      refine ⟨happends, ?_⟩
      have hon : AsyncFile.aenter (modeToFlags mode) true w.content =
          { AsyncFile.aenter (modeToFlags mode) true w.content with file := w.content } :=
        congrArg (fun c => ({ AsyncFile.aenter (modeToFlags mode) true w.content with
          file := c } : State)) hfile
      show Tended _ (w.blocksOf w.handles.length)
        { AsyncFile.aenter (modeToFlags mode) true w.content with file := w.content }
      rw [hnone, ← hon]
      exact hnew
  · intro b hb
    rw [List.length_append]
    exact Nat.lt_add_right _ (h.known b hb)

/-- The blocks of one object after one of them has written. -/
theorem blocksOf_append (w : World) (content : List UInt8) (handles : List Handle) (j k : ℕ)
    (bs : List (ℕ × List UInt8)) :
    World.blocksOf ⟨content, handles, w.blocks ++ bs.map fun b => ⟨j, b.1, b.2⟩⟩ k =
      w.blocksOf k ++ if j = k then bs else [] := by
  have hnew : ((bs.map fun b => (⟨j, b.1, b.2⟩ : Block)).filter (·.handle = k)).map
      (fun b => (b.call, b.bytes)) = if j = k then bs else [] := by
    split
    · next hjk =>
      rw [List.filter_eq_self.mpr ?_, List.map_map]
      · exact List.map_id bs
      · intro b hb
        obtain ⟨a, -, rfl⟩ := List.mem_map.mp hb
        exact decide_eq_true hjk
    · next hjk =>
      rw [List.filter_eq_nil_iff.mpr ?_, List.map_nil]
      intro b hb
      obtain ⟨a, -, rfl⟩ := List.mem_map.mp hb
      simpa using hjk
  simp only [World.blocksOf, List.filter_append, List.map_append, hnew]

/-- One of the objects takes a step. -/
theorem Coherent.run (h : Coherent content w) {j : ℕ} {e : Event} {hd : Handle} {t : State}
    (hj : w.handles[j]? = some hd) (ht : AsyncFile.step hd.flags (hd.on w.content) e = some t) :
    Coherent content {
      content := t.file
      handles := w.handles.set j ⟨hd.flags, t, hd.callerAfter e⟩
      blocks := w.blocks ++ (hd.written e).map fun b => ⟨j, b.1, b.2⟩ } := by
  obtain ⟨happends, htended⟩ := h.tended j hd hj
  obtain ⟨hnext, hfile⟩ := htended.step happends ht
  have hlt := (List.getElem?_eq_some_iff.mp hj).1
  refine ⟨?_, ?_, ?_⟩
  · rw [hfile, h.content, List.flatMap_append, List.append_assoc, List.flatMap_map]
  · intro k hk hget
    rw [blocksOf_append]
    rw [List.getElem?_set] at hget
    split at hget
    · next hjk =>
      obtain rfl := Option.some.inj hget
      rw [if_pos hjk, ← hjk]
      exact ⟨happends, hnext⟩
    · next hjk =>
      rw [if_neg hjk, List.append_nil]
      obtain ⟨hothers, hold⟩ := h.tended k hk hget
      exact ⟨hothers, hold.grow ⟨_, hfile.symm⟩⟩
  · intro b hb
    rw [List.length_set]
    rcases List.mem_append.mp hb with hold | hnew
    · exact h.known b hold
    · obtain ⟨a, -, rfl⟩ := List.mem_map.mp hnew
      exact hlt

/-- **A step of the world.** -/
theorem Coherent.step (h : Coherent content w) {e : WorldEvent} (he : OpensForAppending w e)
    (ht : w.step e = some x) : Coherent content x ∧ w.blocks <+: x.blocks := by
  rcases World.step_cases ht with ⟨mode, rfl, rfl⟩ | ⟨j, f, hd, t, rfl, hj, hstep, rfl⟩
  · exact ⟨h.aenter he, List.prefix_rfl⟩
  · exact ⟨h.run hj hstep, List.prefix_append _ _⟩

theorem Coherent.reach (h : Coherent content w) (hreach : Reach World.step OpensForAppending w x) :
    Coherent content x ∧ w.blocks <+: x.blocks := by
  refine hreach.invariant (I := fun y => Coherent content y ∧ w.blocks <+: y.blocks)
    ⟨h, List.prefix_rfl⟩ ?_
  rintro y e z ⟨hy, hprefix⟩ he hz
  obtain ⟨hcoherent, hmore⟩ := hy.step he hz
  exact ⟨hcoherent, hprefix.trans hmore⟩

/-- A list has no entry twice if none of its parts has. -/
theorem nodup_of_parts {α β γ : Type} [DecidableEq β] (f : α → β) (g : α → γ) : ∀ (l : List α),
    (∀ b, ((l.filter (f · = b)).map g).Nodup) → (l.map fun a => (f a, g a)).Nodup
  | [], _ => List.nodup_nil
  | a :: l, h => by
    have htail : ∀ b, ((l.filter (f · = b)).map g).Nodup := fun b =>
      (h b).sublist (((List.sublist_cons_self a l).filter _).map g)
    refine List.nodup_cons.mpr ⟨?_, nodup_of_parts f g l htail⟩
    intro hmem
    obtain ⟨a', ha', heq⟩ := List.mem_map.mp hmem
    obtain ⟨hf, hg⟩ := Prod.mk.inj heq
    have hpart := h (f a)
    rw [List.filter_cons_of_pos (by simp), List.map_cons, List.nodup_cons] at hpart
    exact hpart.1 (hg ▸ List.mem_map_of_mem (List.mem_filter.mpr ⟨ha', by simp [hf]⟩))

theorem Coherent.appended (h : Coherent content w) : Appended content w where
  content := h.content
  once := by
    refine nodup_of_parts Block.handle Block.call w.blocks ?_
    intro j
    have hpart : (w.blocksOf j).map Prod.fst = (w.blocks.filter (·.handle = j)).map Block.call := by
      simp only [World.blocksOf, List.map_map]
      rfl
    rw [← hpart]
    by_cases hj : j < w.handles.length
    · obtain ⟨-, htended⟩ := h.tended j _ (List.getElem?_eq_getElem hj)
      exact (List.nodup_append.mp htended.rests.2.once).1
    · have hnone : w.blocksOf j = [] := by
        unfold World.blocksOf
        rw [List.map_eq_nil_iff, List.filter_eq_nil_iff]
        intro b hb heq
        exact hj (of_decide_eq_true heq ▸ h.known b hb)
      rw [hnone]
      exact List.nodup_nil
  owned b hb := by
    have hget := List.getElem?_eq_getElem (h.known b hb)
    obtain ⟨-, htended⟩ := h.tended _ _ hget
    obtain ⟨⟨x, hpos, hlt, hx⟩, data, hdata, hbytes⟩ :=
      htended.rests.2.owned (b.call, b.bytes) (mem_blocksOf.mpr hb)
    have hbegun := htended.rests.2.begun x hpos hlt (by simp)
    rw [hx] at hbegun
    exact ⟨_, data, hget, htended.ledger.lt_calls hbegun.1, hdata, hbytes⟩
  counted j hd u n hget hdone := by
    obtain ⟨-, htended⟩ := h.tended j hd hget
    have hsettled := htended.rests.2.settled u (by simp)
    change Settled _ _ _ u (hd.state.task u) at hsettled
    rw [hdone] at hsettled
    obtain ⟨data, hop, hn⟩ := hsettled
    rcases hn with ⟨rfl, rfl⟩ | ⟨bytes, hbytes, hlen⟩
    · exact Or.inl ⟨hop, rfl⟩
    · exact Or.inr ⟨_, mem_blocksOf.mp hbytes, rfl, rfl, hlen⟩
  reads j hd u out hget hdone := by
    obtain ⟨-, htended⟩ := h.tended j hd hget
    have hsettled := htended.rests.2.settled u (by simp)
    change Settled _ _ _ u (hd.state.task u) at hsettled
    rw [hdone] at hsettled
    exact hsettled

/-- **Appending loses nothing.**  Whatever objects are opened on a file for reading or for
appending, whatever they are called for, whoever is cancelled and whatever the kernel answers in
whatever order: the file holds a block for each write that was carried out, in full for a call
that returned a count.  A write that has returned comes before every write called later. -/
theorem appends_in_order (content : List UInt8) {w x : World}
    (hw : Reach World.step OpensForAppending (World.start content) w)
    (hx : Reach World.step OpensForAppending w x) :
    Appended content x ∧ w.blocks <+: x.blocks ∧
      ∀ (j : ℕ) (h : Handle) (u n : ℕ), w.handles[j]? = some h →
        h.state.task u = .done (.count n) → n ≠ 0 →
        ∀ later ∈ x.blocks, ¬ w.Called later.handle later.call →
          ∃ b, b.handle = j ∧ b.call = u ∧ b.bytes.length = n ∧ [b, later].Sublist x.blocks := by
  obtain ⟨hcoherent, -⟩ := (coherent_start content).reach hw
  obtain ⟨hend, hprefix⟩ := hcoherent.reach hx
  refine ⟨hend.appended, hprefix, ?_⟩
  intro j h u n hget hdone hn later hlater hnew
  have happended := hcoherent.appended
  obtain ⟨-, hzero⟩ | ⟨b, hb, hj, hu, hlen⟩ := happended.counted j h u n hget hdone
  · exact absurd hzero hn
  refine ⟨b, hj, hu, hlen, ?_⟩
  obtain ⟨rest, hrest⟩ := hprefix
  rw [← hrest, List.mem_append] at hlater
  rcases hlater with hold | hlater
  · obtain ⟨h', -, hget', hcalled, -⟩ := happended.owned later hold
    exact absurd ⟨h', hget', hcalled⟩ hnew
  · rw [← hrest]
    exact (List.singleton_sublist.mpr hb).append (List.singleton_sublist.mpr hlater)

/-- Two objects are opened for appending.  The first one writes two bytes, and its call
returns. -/
def firstWrites : List WorldEvent :=
  [.aenter .ab, .aenter .ab, .run 0 (.call (.write [1, 2])), .run 0 (.acquire 0 1),
    .run 0 (.complete 0 2), .run 0 (.onReadable 0 none), .run 0 (.resume 0 1)]

/-- The second one writes a byte. -/
def secondWrites : List WorldEvent :=
  [.run 1 (.call (.write [3])), .run 1 (.acquire 0 1), .run 1 (.complete 0 1)]

/-- A call on another object comes after the one that has returned. -/
theorem appends_in_order_two : ∃ w x, exec World.step (World.start [9]) firstWrites = some w ∧
    exec World.step w secondWrites = some x ∧ x.content = [9, 1, 2, 3] ∧
    ∃ b : Block, b.handle = 0 ∧ b.call = 0 ∧ b.bytes.length = 2 ∧
      [b, ⟨1, 0, [3]⟩].Sublist x.blocks := by
  obtain ⟨w, hw, hdone, hcalls⟩ : ∃ w, exec World.step (World.start [9]) firstWrites = some w ∧
      w.handles[0]?.map (fun h => h.state.task 0) = some (.done (.count 2)) ∧
      w.handles[1]?.map (fun h => h.state.calls) = some 0 := ⟨_, rfl, by decide, by decide⟩
  obtain ⟨x, hx, hcontent, hlater⟩ : ∃ x, exec World.step w secondWrites = some x ∧
      x.content = [9, 1, 2, 3] ∧ (⟨1, 0, [3]⟩ : Block) ∈ x.blocks := by
    cases hw
    exact ⟨_, rfl, by decide, by decide⟩
  obtain ⟨h, hget, htask⟩ := Option.map_eq_some_iff.mp hdone
  have hnew : ¬ w.Called 1 0 := by
    rintro ⟨h', hget', hcalled⟩
    rw [hget', Option.map_some, Option.some.injEq] at hcalls
    omega
  have hfirst := reach_of_exec (P := OpensForAppending) (by decide) hw
  have hmeets : Meets World.step OpensForAppending w secondWrites :=
    ⟨trivial, fun _ _ => ⟨trivial, fun _ _ => ⟨trivial, fun _ _ => trivial⟩⟩⟩
  exact ⟨w, x, hw, hx, hcontent, (appends_in_order [9] hfirst (reach_of_exec hmeets hx)).2.2 0 h 0 2
    hget htask (by decide) _ hlater hnew⟩

end AsyncFile
end Pyuring
