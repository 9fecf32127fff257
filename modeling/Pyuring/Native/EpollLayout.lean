import Pyuring.Lib.RecordLayout
import Pyuring.Native.Request
import Pyuring.UringAsync

/-!
# Epoll events between Python and the kernel

`EpollEvent` is the `struct epoll_event` of most machines: the mask, a word of padding, and the
data, sixteen bytes in all.  On x86-64 the kernel's structure is packed, and has no padding: the
data follows the mask, and an event takes twelve bytes.

Memory is made of words of 32 bits; the data takes two of them, in an order that depends on the
machine.  `epollWait` and `epollCtl` are the two calls that pass events, with the kernel on the
other side.

`epoll_faithful_iff` says which events get through.
-/

namespace Pyuring
namespace Native
namespace EpollLayout

/-! ## Words -/

def joinWords (hi lo : UInt32) : UInt64 := (hi.toUInt64 <<< 32) ||| lo.toUInt64

def upper (d : UInt64) : UInt32 := (d >>> 32).toUInt32

def lower (d : UInt64) : UInt32 := d.toUInt32

theorem toNat_joinWords (hi lo : UInt32) :
    (joinWords hi lo).toNat = 2 ^ 32 * hi.toNat + lo.toNat := toNat_packUd hi lo

theorem toNat_upper (d : UInt64) : (upper d).toNat = d.toNat / 2 ^ 32 := by
  have hlt := d.toNat_lt
  rw [upper, UInt64.toNat_toUInt32, UInt64.toNat_shiftRight,
    show UInt64.toNat 32 % 64 = 32 from rfl, Nat.shiftRight_eq_div_pow]
  omega

theorem toNat_lower (d : UInt64) : (lower d).toNat = d.toNat % 2 ^ 32 := by
  rw [lower, UInt64.toNat_toUInt32]

@[simp] theorem upper_joinWords (hi lo : UInt32) : upper (joinWords hi lo) = hi := by
  have hlo := lo.toNat_lt
  rw [← UInt32.toNat_inj, toNat_upper, toNat_joinWords]
  omega

@[simp] theorem lower_joinWords (hi lo : UInt32) : lower (joinWords hi lo) = lo := by
  have hlo := lo.toNat_lt
  rw [← UInt32.toNat_inj, toNat_lower, toNat_joinWords]
  omega

@[simp] theorem joinWords_upper_lower (d : UInt64) : joinWords (upper d) (lower d) = d := by
  rw [← UInt64.toNat_inj, toNat_joinWords, toNat_upper, toNat_lower]
  omega

/-! ## The two layouts -/

/-- A machine: x86-64, or one on which the structure is not packed. -/
inductive Arch where
  | x86_64
  | other (bigEndian : Bool)
  deriving DecidableEq, Repr

/-- Whether the upper half of the data comes first. -/
def Arch.bigEndian : Arch → Bool
  | .x86_64 => false
  | .other bigEndian => bigEndian

/-- The words of a `struct epoll_event` that hold something. -/
inductive Field where
  | events
  | first
  | second
  deriving DecidableEq, Repr

/-- `_fields_` of `EpollEvent`; the second of its four words is `_pad`. -/
def pythonLayout : RecordLayout Field where
  fields := [.events, .first, .second]
  stride := 4
  offset
    | .events => 0
    | .first => 2
    | .second => 3
  mem_fields f := by cases f <;> decide
  offset_lt f := by cases f <;> decide
  offset_inj f g := by cases f <;> cases g <;> decide

/-- The packed structure. -/
def packedLayout : RecordLayout Field where
  fields := [.events, .first, .second]
  stride := 3
  offset
    | .events => 0
    | .first => 1
    | .second => 2
  mem_fields f := by cases f <;> decide
  offset_lt f := by cases f <;> decide
  offset_inj f g := by cases f <;> cases g <;> decide

/-- The kernel's structure. -/
def kernelLayout : Arch → RecordLayout Field
  | .x86_64 => packedLayout
  | .other _ => pythonLayout

/-- What an event says. -/
structure Event where
  events : UInt32
  data : UInt64
  deriving DecidableEq, Repr

/-- An object of the class. -/
structure EpollEvent extends Event where
  pad : UInt32
  deriving DecidableEq, Repr

/-- The words of an event. -/
def Event.words (arch : Arch) (e : Event) : Field → UInt32
  | .events => e.events
  | .first => if arch.bigEndian then upper e.data else lower e.data
  | .second => if arch.bigEndian then lower e.data else upper e.data

def Event.ofWords (arch : Arch) (w : Field → UInt32) : Event where
  events := w .events
  data := if arch.bigEndian then joinWords (w .first) (w .second)
    else joinWords (w .second) (w .first)

@[simp] theorem ofWords_words (arch : Arch) (e : Event) : .ofWords arch (e.words arch) = e := by
  unfold Event.ofWords Event.words
  cases arch.bigEndian <;> simp

theorem words_injective (arch : Arch) : Function.Injective (Event.words arch) :=
  Function.LeftInverse.injective (g := Event.ofWords arch) (ofWords_words arch)

@[simp] theorem words_ofWords (arch : Arch) (w : Field → UInt32) :
    (Event.ofWords arch w).words arch = w := by
  funext f
  unfold Event.ofWords Event.words
  cases arch.bigEndian <;> cases f <;> simp

/-! ## The calls -/

/-- What `epoll_wait` raises. -/
inductive WaitError where
  | valueError
  | uringError (exc : UringError)
  deriving DecidableEq, Repr

/-- The memory of `(EpollEvent * n)()` after the kernel stored `stored`. -/
def arrAfter (arch : Arch) (stored : List Event) : ℕ → UInt32 :=
  (kernelLayout arch).storeAll 0 (stored.map (Event.words arch)) fun _ => 0

/-- `arr[i]`. -/
def readEvent (arch : Arch) (mem : ℕ → UInt32) (i : ℕ) : EpollEvent :=
  { Event.ofWords arch (pythonLayout.load i mem) with pad := mem (pythonLayout.stride * i + 1) }

/-- `UringCtx.epoll_wait`, when the kernel fails or stores events and returns their number. -/
def epollWait (arch : Arch) (answer : Except Errno (List Event)) (maxevents : ℤ) :
    Except WaitError (ℤ × List EpollEvent) :=
  if maxevents ≤ 0 then .error .valueError
  else match answer with
    | .error e => .error (.uringError ⟨e.1, "uring_epoll_wait_sync", none⟩)
    | .ok stored =>
      let k := min stored.length maxevents.toNat
      .ok (stored.length, (List.range k).map (readEvent arch (arrAfter arch stored)))

/-- The memory of an `EpollEvent`. -/
def EpollEvent.memory (arch : Arch) (e : EpollEvent) : ℕ → UInt32 :=
  pythonLayout.store 0 (e.words arch) fun p => if p = 1 then e.pad else 0

/-- What the kernel registers for `UringCtx.epoll_ctl`, from the address it is given. -/
def epollCtl (arch : Arch) (event : Option EpollEvent) : Option Event :=
  event.map fun e => .ofWords arch ((kernelLayout arch).load 0 (e.memory arch))

/-! ## What gets through -/

/-- The call returns the events that the kernel stored. -/
def WaitFaithful (arch : Arch) (stored : List Event) (maxevents : ℤ) : Prop :=
  ∃ l, epollWait arch (.ok stored) maxevents = .ok (stored.length, l) ∧
    l.map EpollEvent.toEvent = stored

/-- Only the mask of the first event is not zero. -/
def OnlyFirstMask : List Event → Prop
  | [] => True
  | e :: es => e.data = 0 ∧ ∀ e' ∈ es, e' = ⟨0, 0⟩

variable {arch : Arch} {stored : List Event}

theorem ofWords_eq_iff {w : Field → UInt32} {e : Event} :
    Event.ofWords arch w = e ↔ w = e.words arch := by
  constructor
  · rintro rfl
    exact (words_ofWords arch w).symm
  · rintro rfl
    exact ofWords_words arch e

/-- The words of the events that were stored. -/
theorem arrAfter_address {i : ℕ} (hi : i < stored.length) (f : Field) :
    arrAfter arch stored ((kernelLayout arch).address i f) = stored[i].words arch f := by
  have hlt : i < (stored.map (Event.words arch)).length := by rwa [List.length_map]
  have hword := congrFun (RecordLayout.load_storeAll (L := kernelLayout arch) hlt fun _ => 0) f
  rwa [List.getElem_map] at hword

/-- **What it takes**: for each field of each event, the word from which Python takes it holds
the same as the word to which the kernel stored it. -/
theorem waitFaithful_iff {maxevents : ℤ} (hpos : 0 < maxevents)
    (hlen : stored.length ≤ maxevents) : WaitFaithful arch stored maxevents ↔
      ∀ i < stored.length, ∀ f, arrAfter arch stored (pythonLayout.address i f) =
        arrAfter arch stored ((kernelLayout arch).address i f) := by
  have hmin : min stored.length maxevents.toNat = stored.length := by omega
  have hread : ∀ i (hi : i < stored.length),
      (readEvent arch (arrAfter arch stored) i).toEvent = stored[i] ↔
        ∀ f, arrAfter arch stored (pythonLayout.address i f) =
          arrAfter arch stored ((kernelLayout arch).address i f) := by
    intro i hi
    simp only [arrAfter_address hi]
    exact ofWords_eq_iff.trans funext_iff
  unfold WaitFaithful epollWait
  rw [if_neg (Int.not_le.mpr hpos)]
  simp only [hmin]
  constructor
  · rintro ⟨l, hl, hmap⟩ i hi
    obtain rfl := congrArg Prod.snd (Except.ok.inj hl)
    refine (hread i hi).mp ?_
    have hget := congrArg (fun es => es[i]?) hmap
    simpa [hi] using hget
  · intro hall
    refine ⟨_, rfl, ?_⟩
    refine List.ext_getElem (by simp) fun i hi hi' => ?_
    simpa using (hread i hi').mpr (hall i hi')

/-- Behind the last event there are zeros. -/
theorem arrAfter_of_le {p : ℕ} (hp : 3 * stored.length ≤ p) : arrAfter .x86_64 stored p = 0 := by
  refine RecordLayout.storeAll_of_le (L := packedLayout) ?_ _
  rw [List.length_map, Nat.zero_add]
  exact hp

/-- Each word of the kernel's array holds a field.  Python takes that field from a word behind
it, up to the first mask. -/
theorem exists_field (p : ℕ) : ∃ f, packedLayout.address (p / 3) f = p ∧
    (0 < p → p < pythonLayout.address (p / 3) f) := by
  have hcases : p % 3 = 0 ∨ p % 3 = 1 ∨ p % 3 = 2 := by omega
  simp only [RecordLayout.address, packedLayout, pythonLayout]
  rcases hcases with hj | hj | hj
  · exact ⟨.events, by simp only; omega, fun _ => by simp only; omega⟩
  · exact ⟨.first, by simp only; omega, fun _ => by simp only; omega⟩
  · exact ⟨.second, by simp only; omega, fun _ => by simp only; omega⟩

/-- What Python takes from further behind, again and again, is a zero in the end. -/
theorem zero_of_faithful (h : ∀ i < stored.length, ∀ f,
      arrAfter .x86_64 stored (pythonLayout.address i f) =
        arrAfter .x86_64 stored (packedLayout.address i f)) :
    ∀ n p, 3 * stored.length ≤ p + n → 0 < p → arrAfter .x86_64 stored p = 0 := by
  intro n
  induction n with
  | zero => exact fun p hp _ => arrAfter_of_le hp
  | succ n ih =>
    intro p hp hpos
    rcases Nat.lt_or_ge p (3 * stored.length) with hlt | hge
    · obtain ⟨f, hf, hbehind⟩ := exists_field p
      have hlater := hbehind hpos
      rw [← hf, ← h _ (by omega) f]
      exact ih _ (by omega) (by omega)
    · exact arrAfter_of_le hge

theorem words_zero (f : Field) : (⟨0, 0⟩ : Event).words .x86_64 f = 0 := by
  cases f <;> rfl

theorem data_eq_zero_iff {e : Event} :
    e.data = 0 ↔ e.words .x86_64 .first = 0 ∧ e.words .x86_64 .second = 0 := by
  constructor
  · intro h
    simp only [Event.words, Arch.bigEndian, h]
    exact ⟨rfl, rfl⟩
  · rintro ⟨hfirst, hsecond⟩
    rw [← ofWords_words .x86_64 e]
    simp only [Event.ofWords, Arch.bigEndian, hfirst, hsecond]
    rfl

/-- The words behind the first mask are the data of the first event and all of the later
events. -/
theorem onlyFirstMask_iff : OnlyFirstMask stored ↔ ∀ p, 0 < p → arrAfter .x86_64 stored p = 0 := by
  cases stored with
  | nil => exact iff_of_true trivial fun _ _ => rfl
  | cons e es =>
    have hword : ∀ {i : ℕ} (hi : i < (e :: es).length) (f : Field),
        arrAfter .x86_64 (e :: es) (packedLayout.address i f) = (e :: es)[i].words .x86_64 f :=
      fun hi f => arrAfter_address hi f
    constructor
    · rintro ⟨hdata, hrest⟩ p hp
      rcases Nat.lt_or_ge p (3 * (e :: es).length) with hlt | hge
      · obtain ⟨f, hf, -⟩ := exists_field p
        have hi : p / 3 < (e :: es).length := by omega
        rw [← hf, hword hi]
        obtain ⟨hfirst, hsecond⟩ := data_eq_zero_iff.mp hdata
        generalize p / 3 = i at hf hi
        cases i with
        | zero =>
          cases f with
          | events => exact absurd hf.symm (by simp [RecordLayout.address, packedLayout]; omega)
          | first => exact hfirst
          | second => exact hsecond
        | succ i =>
          rw [List.getElem_cons_succ, hrest _ (List.getElem_mem (Nat.lt_of_succ_lt_succ hi))]
          exact words_zero f
      · exact arrAfter_of_le hge
    · intro h
      refine ⟨data_eq_zero_iff.mpr ⟨?_, ?_⟩, fun e' he' => ?_⟩
      · exact (hword (Nat.succ_pos _) .first).symm.trans (h 1 (by decide))
      · exact (hword (Nat.succ_pos _) .second).symm.trans (h 2 (by decide))
      · obtain ⟨i, hi, rfl⟩ := List.getElem_of_mem he'
        refine words_injective .x86_64 (funext fun f => ?_)
        rw [words_zero]
        refine (hword (i := i + 1) (Nat.succ_lt_succ hi) f).symm.trans (h _ ?_)
        simp only [RecordLayout.address, packedLayout]
        omega

theorem waitFaithful_x86_64_iff {maxevents : ℤ} (hpos : 0 < maxevents)
    (hlen : stored.length ≤ maxevents) :
    WaitFaithful .x86_64 stored maxevents ↔ OnlyFirstMask stored := by
  rw [waitFaithful_iff hpos hlen, onlyFirstMask_iff]
  constructor
  · exact fun h p => zero_of_faithful h (3 * stored.length) p (by omega)
  · intro h i hi f
    show arrAfter .x86_64 stored _ = arrAfter .x86_64 stored (packedLayout.address i f)
    by_cases h0 : packedLayout.address i f = 0
    · have heq : pythonLayout.address i f = packedLayout.address i f := by
        cases f <;> simp only [RecordLayout.address, packedLayout, pythonLayout] at h0 ⊢ <;> omega
      rw [heq]
    · have hpos' : 0 < pythonLayout.address i f := by
        cases f <;> simp only [RecordLayout.address, packedLayout, pythonLayout] at h0 ⊢ <;> omega
      rw [h _ hpos', h _ (Nat.pos_of_ne_zero h0)]

/-- What the kernel takes from the memory of an `EpollEvent`. -/
theorem epollCtl_x86_64 (e : EpollEvent) :
    epollCtl .x86_64 (some e) = some ⟨e.events, joinWords (lower e.data) e.pad⟩ := rfl

theorem epollCtl_other (bigEndian : Bool) (e : EpollEvent) :
    epollCtl (.other bigEndian) (some e) = some e.toEvent := by
  have hload : pythonLayout.load 0 (e.memory (.other bigEndian)) =
      e.words (.other bigEndian) := by
    funext f
    rw [RecordLayout.load, EpollEvent.memory, RecordLayout.store_address]
  show some (Event.ofWords _ (pythonLayout.load 0 _)) = _
  rw [hload, ofWords_words]

/-- **Epoll events get through** on machines where the structure is not packed.  On x86-64 a list
is returned as it is when it has nothing but a first mask, and an event is registered as it is
when both halves of its data equal the word of padding. -/
theorem epoll_faithful_iff (arch : Arch) :
    (∀ (stored : List Event) (maxevents : ℤ), 0 < maxevents → stored.length ≤ maxevents →
      (WaitFaithful arch stored maxevents ↔ arch ≠ .x86_64 ∨ OnlyFirstMask stored)) ∧
    ∀ e : EpollEvent, epollCtl arch (some e) = some e.toEvent ↔
      arch ≠ .x86_64 ∨ e.data = joinWords e.pad e.pad := by
  cases arch with
  | other bigEndian =>
    refine ⟨fun stored maxevents hpos hlen => ?_, fun e => ?_⟩
    · exact iff_of_true ((waitFaithful_iff hpos hlen).mpr fun _ _ _ => rfl) (Or.inl (by simp))
    · exact iff_of_true (epollCtl_other bigEndian e) (Or.inl (by simp))
  | x86_64 =>
    refine ⟨fun stored maxevents hpos hlen => ?_, fun e => ?_⟩
    · rw [waitFaithful_x86_64_iff hpos hlen]
      simp
    · rw [epollCtl_x86_64]
      simp only [ne_eq, not_true, false_or, Option.some.injEq]
      constructor
      · intro h
        have hdata : joinWords (lower e.data) e.pad = e.data := congrArg Event.data h
        have hlow : e.pad = lower e.data := by
          rw [← lower_joinWords (lower e.data) e.pad, hdata]
        rw [← hlow] at hdata
        exact hdata.symm
      · intro h
        have hevent : (⟨e.events, joinWords (lower e.data) e.pad⟩ : Event) = ⟨e.events, e.data⟩ := by
          rw [h, lower_joinWords]
        exact hevent

/-- An event without data gets through on x86-64, and one with data on another machine. -/
theorem epoll_faithful_iff_one : WaitFaithful .x86_64 [⟨1, 0⟩] 4 ∧
    WaitFaithful (.other false) [⟨1, 7⟩, ⟨4, 9⟩] 4 ∧
    epollCtl .x86_64 (some ⟨⟨1, 0⟩, 0⟩) = some ⟨1, 0⟩ :=
  ⟨((epoll_faithful_iff .x86_64).1 [⟨1, 0⟩] 4 (by decide) (by decide)).mpr
      (Or.inr ⟨rfl, by simp⟩),
    ((epoll_faithful_iff (.other false)).1 [⟨1, 7⟩, ⟨4, 9⟩] 4 (by decide) (by decide)).mpr
      (Or.inl (by decide)),
    ((epoll_faithful_iff .x86_64).2 ⟨⟨1, 0⟩, 0⟩).mpr (Or.inr (by decide))⟩

/-- The data 7 is neither returned nor registered. -/
theorem epoll_data_lost : ¬ WaitFaithful .x86_64 [⟨1, 7⟩] 1 ∧
    epollCtl .x86_64 (some ⟨⟨1, 7⟩, 0⟩) ≠ some ⟨1, 7⟩ := by
  refine ⟨?_, by decide⟩
  rintro ⟨l, hl, hmap⟩
  obtain rfl := congrArg Prod.snd (Except.ok.inj hl)
  exact absurd hmap (by decide)

end EpollLayout
end Native
end Pyuring
