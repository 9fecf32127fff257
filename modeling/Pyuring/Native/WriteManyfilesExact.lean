import Pyuring.Native.WriteManyfilesRun

/-!
# Many files are complete

Undisturbed writes of many files, while the counter `rr` of the scan does not overflow.
Then the scan never looks at a file in vain: the `i`-th chunk is that of file `i % nfiles`,
at `blockSize * (i / nfiles)`, whatever the kernel does (`Regular`).  So the loop cannot
stop early for want of a file, and it stops with every file asked for to its end.
-/

namespace Pyuring
namespace Native
namespace WriteManyfiles

open CompletionRing Trace

variable (cfg : Config)

/-- The number of chunks of all files together; where the scan never looks in vain it is also
the number of its steps. -/
def Config.chunks : ℕ := cfg.nfiles * (cfg.perFileBytes ⌈/⌉ cfg.blockSize)

/-- The chunks are asked for in turn. -/
structure Regular (s : State) : Prop where
  turn : s.rr = (prepped s.log).length
  le : (prepped s.log).length ≤ cfg.chunks
  off : ∀ f < cfg.nfiles, s.fileOff f =
    min cfg.perFileBytes (cfg.blockSize * (prepped s.log).length.count (· ≡ f [MOD cfg.nfiles]))
  placed : ∀ i q, (prepped s.log)[i]? = some q →
    q.file = i % cfg.nfiles ∧ q.off = cfg.blockSize * (i / cfg.nfiles)

variable {cfg} {s t : State}

theorem regular_start : Regular cfg (start cfg) := by
  refine ⟨rfl, Nat.zero_le _, fun f _ => ?_, ?_⟩ <;> simp [start, blank, prepped]

theorem Table.exists_notDone (h : Table cfg s) (hundone : s.doneFiles < cfg.nfiles) :
    ∃ f < cfg.nfiles, s.fileDone f = false := by
  by_contra hno
  push Not at hno
  have hall : (Finset.range cfg.nfiles).filter (fun f => s.fileDone f = true) =
      Finset.range cfg.nfiles :=
    Finset.filter_true_of_mem fun f hf => by simpa using hno f (Finset.mem_range.mp hf)
  rw [h.doneFiles, hall, Finset.card_range] at hundone
  exact absurd hundone (Nat.lt_irrefl _)

theorem Table.all_done (h : Table cfg s) (hdone : cfg.nfiles ≤ s.doneFiles) {f : ℕ}
    (hf : f < cfg.nfiles) : s.fileOff f = cfg.perFileBytes := by
  have hsub := Finset.filter_subset (fun f => s.fileDone f = true) (Finset.range cfg.nfiles)
  have hall := Finset.eq_of_subset_of_card_le hsub
    (by rw [← h.doneFiles, Finset.card_range]; exact hdone)
  have hmem : f ∈ (Finset.range cfg.nfiles).filter fun f => s.fileDone f = true := by
    rw [hall]
    exact Finset.mem_range.mpr hf
  exact (h.done f).mp (Finset.mem_filter.mp hmem).2

/-! ## Turns -/

section Regular

variable (hcfg : Undisturbed cfg) (h : Regular cfg s) (htable : Table cfg s)

include hcfg h htable

theorem Regular.lt_chunks (hundone : s.doneFiles < cfg.nfiles) :
    (prepped s.log).length < cfg.chunks := by
  obtain ⟨f, hf, hnot⟩ := htable.exists_notDone hundone
  have hoff := htable.lt_of_notDone hnot
  rw [h.off f hf, min_lt_iff, or_iff_right (Nat.lt_irrefl _)] at hoff
  have hturns := not_le.mp (mt (ceilDiv_le_iff_le_smul hcfg.pos.2.2.1).mp (not_le.mpr hoff))
  rw [Nat.count_modEq_card _ hcfg.pos.1] at hturns
  have hdiv : (prepped s.log).length / cfg.nfiles < cfg.perFileBytes ⌈/⌉ cfg.blockSize := by
    omega
  rw [Config.chunks, Nat.mul_comm]
  exact (Nat.div_lt_iff_lt_mul hcfg.pos.1).mp hdiv

/-- The file whose turn it is has bytes left. -/
theorem Regular.turn_off (hlt : (prepped s.log).length < cfg.chunks) :
    s.fileOff (s.rr % cfg.nfiles) = cfg.blockSize * (s.rr / cfg.nfiles) ∧
      s.fileDone (s.rr % cfg.nfiles) = false := by
  have hcount : s.rr.count (· ≡ s.rr % cfg.nfiles [MOD cfg.nfiles]) = s.rr / cfg.nfiles := by
    rw [Nat.count_modEq_card _ hcfg.pos.1]
    simp
  have hoff := h.off _ (Nat.mod_lt s.rr hcfg.pos.1)
  rw [← h.turn] at hlt
  rw [← h.turn, hcount] at hoff
  have hdiv : s.rr / cfg.nfiles < cfg.perFileBytes ⌈/⌉ cfg.blockSize :=
    Nat.div_lt_of_lt_mul hlt
  have hmul := not_le.mp (mt (ceilDiv_le_iff_le_smul hcfg.pos.2.2.1).mpr (not_le.mpr hdiv))
  rw [smul_eq_mul] at hmul
  rw [Nat.min_eq_right hmul.le] at hoff
  refine ⟨hoff, ?_⟩
  by_contra hdone
  have heq := (htable.done _).mp (Bool.eq_true_of_not_eq_false hdone)
  omega

theorem Regular.picks (hundone : s.doneFiles < cfg.nfiles) :
    Picks cfg s (s.rr % cfg.nfiles) ((s.rr + 1) % 2 ^ 32) :=
  picks_of_turn htable hcfg.pos.1 (h.turn_off hcfg htable (h.lt_chunks hcfg htable hundone)).2

/-- No scan is in vain. -/
theorem Regular.not_misses {rr : ℕ} : ¬ Misses cfg s rr := by
  rintro ⟨-, hundone, hnone⟩
  have heq := (h.picks hcfg htable hundone).eq
  rw [hnone] at heq
  exact absurd (congrArg Prod.fst heq) (by simp)

/-- Where the scan goes. -/
theorem Regular.picks_eq (hundone : s.doneFiles < cfg.nfiles) {f rr : ℕ}
    (hpicks : Picks cfg s f rr) : f = s.rr % cfg.nfiles ∧ rr = (s.rr + 1) % 2 ^ 32 := by
  have heq := hpicks.eq.symm.trans (h.picks hcfg htable hundone).eq
  obtain ⟨hfound, hnext⟩ := Prod.mk.inj heq
  exact ⟨(Prod.mk.inj (Option.some.inj hfound)).1, congrArg State.rr hnext⟩

/-- A round of the queueing loop keeps the turns, until the counter overflows. -/
theorem Regular.round (hlt : (prepped s.log).length + 1 < 2 ^ 32) (hround : Round cfg s t) :
    Regular cfg t := by
  cases hround with
  | @queue slot rest f rr _ hundone hpicks =>
    obtain ⟨rfl, rfl⟩ := h.picks_eq hcfg htable hundone hpicks
    have hchunks := h.lt_chunks hcfg htable hundone
    obtain ⟨hoff, hnot⟩ := h.turn_off hcfg htable hchunks
    have hlen : (prepped (s.queue cfg slot rest (s.rr % cfg.nfiles)
        ((s.rr + 1) % 2 ^ 32)).log).length = (prepped s.log).length + 1 := by
      simp [State.queue, prepped]
    refine ⟨?_, ?_, ?_, ?_⟩
    · rw [hlen, ← h.turn]
      exact Nat.mod_eq_of_lt (by rw [h.turn]; exact hlt)
    · rw [hlen]
      exact hchunks
    · intro f hf
      rw [hlen, Nat.count_succ, ← h.turn]
      simp only [State.queue, State.take]
      by_cases hturn : f = s.rr % cfg.nfiles
      · subst hturn
        have hcount : s.rr.count (· ≡ s.rr % cfg.nfiles [MOD cfg.nfiles]) = s.rr / cfg.nfiles := by
          rw [Nat.count_modEq_card _ hcfg.pos.1]
          simp
        have hlt' := htable.lt_of_notDone hnot
        rw [Function.update_self, if_pos (Nat.mod_modEq _ _).symm, hcount, Nat.mul_add,
          Nat.mul_one, ← hoff]
        unfold Config.want
        split <;> omega
      · have hmod : ¬ s.rr ≡ f [MOD cfg.nfiles] := fun heq =>
          hturn (by rw [heq, Nat.mod_eq_of_lt hf])
        rw [Function.update_of_ne hturn, if_neg hmod, Nat.add_zero, h.turn]
        exact h.off f hf
    · intro i q hq
      rw [State.queue, prepped] at hq
      rcases Nat.lt_trichotomy i (prepped s.log).length with hi | rfl | hi
      · exact h.placed i q (by rwa [List.getElem?_append_left hi] at hq)
      · rw [List.getElem?_concat_length] at hq
        rw [← Option.some.inj hq, ← h.turn]
        exact ⟨rfl, hoff⟩
      · rw [List.getElem?_eq_none (by simpa using hi)] at hq
        exact absurd hq (by simp)

end Regular

/-! ## Runs -/

section Runs

variable (hcfg : Undisturbed cfg) (hchunks : cfg.chunks < 2 ^ 32)

include hcfg hchunks

theorem Regular.rounds (h : Regular cfg s) (htable : Table cfg s)
    (hrounds : Relation.ReflTransGen (Round cfg) s t) : Regular cfg t ∧ Table cfg t := by
  induction hrounds with
  | refl => exact ⟨h, htable⟩
  | tail _ hround ih =>
    obtain ⟨hreg, htab⟩ := ih
    refine ⟨hreg.round hcfg htab ?_ hround, hround.table htab⟩
    cases hround with
    | queue _ hundone _ => exact Nat.lt_of_le_of_lt (hreg.lt_chunks hcfg htab hundone) hchunks

/-- A step keeps the turns. -/
theorem Regular.moves (h : Regular cfg s) (hbooks : Books cfg s) (hmove : Moves cfg s t) :
    Regular cfg t := by
  cases hmove with
  | @fill u rr ret _ _ hrounds hex =>
    obtain ⟨hu, htable⟩ := h.rounds hcfg hchunks hbooks.table hrounds
    obtain ⟨-, rfl⟩ := hex.resolve_right (hu.not_misses hcfg htable)
    exact { hu with }
  | finish _ hl =>
    have hprep := (prepped_dones_of_fsyncs s.log hl).1
    exact ⟨by rw [hprep]; exact h.turn, by rw [hprep]; exact h.le,
      by rw [hprep]; exact h.off, by rw [hprep]; exact h.placed⟩
  | complete => exact { h with }
  | leave => exact { h with }
  | wait => exact { h with }
  | nothing => exact { h with }
  | reap => exact { h with }
  | cleanup => exact { h with }

end Runs

/-- Everything that was counted at the end was asked for. -/
theorem Books.written_eq (h : Books cfg s) (hidle : s.ring.Idle) :
    s.written = ∑ f ∈ Finset.range cfg.nfiles, s.fileOff f := by
  have hcounted := h.counted
  rw [hidle.2.2, List.map_nil, List.sum_nil, Nat.add_zero] at hcounted
  rw [hcounted, h.ledger.sum_of_idle hidle, h.reserved]

/-- The files are asked for to their end. -/
def AllAsked (cfg : Config) (s : State) : Prop :=
  ∀ f < cfg.nfiles, s.fileOff f = cfg.perFileBytes

theorem Books.written_of_allAsked (h : Books cfg s) (hidle : s.ring.Idle)
    (hall : AllAsked cfg s) : s.written = cfg.nfiles * cfg.perFileBytes := by
  rw [h.written_eq hidle, Finset.sum_congr rfl fun f hf => hall f (Finset.mem_range.mp hf),
    Finset.sum_const, Finset.card_range, smul_eq_mul]

/-- Bytes of all files were counted, so all files were asked for. -/
theorem Books.allAsked (h : Books cfg s) (hidle : s.ring.Idle)
    (hwritten : cfg.nfiles * cfg.perFileBytes ≤ s.written) : AllAsked cfg s := by
  intro f hf
  by_contra hne
  have hlt : ∑ f ∈ Finset.range cfg.nfiles, s.fileOff f <
      ∑ _f ∈ Finset.range cfg.nfiles, cfg.perFileBytes :=
    Finset.sum_lt_sum (fun g _ => h.table.off_le g)
      ⟨f, Finset.mem_range.mpr hf, Nat.lt_of_le_of_ne (h.table.off_le f) hne⟩
  rw [← h.written_eq hidle, Finset.sum_const, Finset.card_range, smul_eq_mul] at hlt
  omega

/-- The invariant of undisturbed writes whose scans are never in vain. -/
structure Complete (cfg : Config) (s : State) : Prop where
  running : Running cfg s
  regular : Regular cfg s
  asked : s.phase = .tail ∨ s.phase = .out ∨ Returned s → AllAsked cfg s

theorem complete_start (hcfg : Undisturbed cfg) : Complete cfg (start cfg) := by
  refine ⟨running_start hcfg, regular_start, ?_⟩
  intro hend
  rw [Returned, hcfg.phase_start] at hend
  exact absurd hend (by simp)

theorem totalBytes_eq (hbytes : cfg.nfiles * cfg.mbPerFile * 2 ^ 20 < 2 ^ 63) :
    cfg.totalBytes = cfg.nfiles * cfg.perFileBytes := by
  have hmul : cfg.perFileBytes * cfg.nfiles = cfg.nfiles * cfg.mbPerFile * 2 ^ 20 := by
    rw [Config.perFileBytes]
    ring
  rw [Config.totalBytes, Nat.mul_comm cfg.nfiles, hmul]
  exact Nat.mod_eq_of_lt (by omega)

/-- **The loop stops with every file asked for to its end.** -/
theorem Complete.step (h : Complete cfg s) (hcfg : Undisturbed cfg)
    (hbytes : cfg.nfiles * cfg.mbPerFile * 2 ^ 20 < 2 ^ 63) (hchunks : cfg.chunks < 2 ^ 32)
    {e : Event} (hans : Answers cfg s e) (ht : step cfg s e = some t) : Complete cfg t := by
  have hmove := moves_of_step hcfg h.running hans ht
  have hrun := h.running.step hcfg hans ht
  refine ⟨hrun, h.regular.moves hcfg hchunks h.running.books hmove, ?_⟩
  cases hmove with
  | complete hphase hq =>
    exact fun hend => h.asked hend
  | @fill u rr ret hphase _ hrounds hex =>
    obtain ⟨hu, htable⟩ := h.regular.rounds hcfg hchunks h.running.books.table hrounds
    rcases awaitAny_cases { u with rr := rr, ring := u.ring.submit, ret := ret } with
      ⟨hzero, heq⟩ | ⟨-, heq⟩ <;> rw [heq] at hrun ⊢
    · -- nothing is in flight, so every slot is free
      intro _ f hf
      have hloop := hrun.good.looping (by simp)
      have hfree := hrun.books.plan.length_freeSlots
      rw [pending_eq_zero.mpr (hloop.idle hzero), Multiset.card_zero, Nat.add_zero] at hfree
      have hqd := hcfg.pos.2.2.2
      obtain ⟨hnil | hdone, -⟩ := hex.resolve_right (hu.not_misses hcfg htable)
      · simp only [hnil, List.length_nil] at hfree
        omega
      · exact htable.all_done hdone hf
    · exact fun hend => absurd hend (by simp [Returned])
  | leave hphase hstops =>
    intro _
    obtain ⟨hwritten, hzero⟩ := not_or.mp hstops
    rw [totalBytes_eq hbytes] at hwritten
    have hidle := (h.running.good.looping (Or.inl hphase)).idle (not_not.mp hzero)
    exact h.running.books.allAsked hidle (Nat.not_lt.mp hwritten)
  | wait => exact fun hend => absurd hend (by simp [Returned])
  | nothing => exact fun hend => absurd hend (by simp [Returned])
  | reap => exact fun hend => absurd hend (by simp [Returned, State.reaped])
  | finish hphase => exact fun _ => h.asked (Or.inl hphase)
  | cleanup hphase => exact fun _ => h.asked (Or.inr (Or.inl hphase))

theorem complete_reach (hcfg : Undisturbed cfg)
    (hbytes : cfg.nfiles * cfg.mbPerFile * 2 ^ 20 < 2 ^ 63) (hchunks : cfg.chunks < 2 ^ 32)
    (h : Reach (step cfg) (Answers cfg) (start cfg) s) : Complete cfg s :=
  h.invariant (complete_start hcfg) fun _ _ _ hcomp hans ht =>
    hcomp.step hcfg hbytes hchunks hans ht

theorem Running.returned_eq (h : Running cfg s) {r : ℤ} (hret : s.phase = .returned r) :
    r = s.written ∧ s.ring.Idle := by
  have hgood := h.good
  simp only [Good, hret] at hgood
  obtain ⟨heq, hfin⟩ := hgood.resolve_left (Int.not_lt.mpr (h.returned r hret))
  exact ⟨heq, hfin.idle⟩

/-- **Many files are complete.**  When nothing around the writes goes wrong and each is
completed in full, in whatever order and however they are reaped, the function terminates
and returns the size of all files together, and every position of each file was written by
exactly one write and no other position was. -/
theorem write_manyfiles_exact (cfg : Config) (hcfg : Undisturbed cfg)
    (hbytes : cfg.nfiles * cfg.mbPerFile * 2 ^ 20 < 2 ^ 63) (hchunks : cfg.chunks < 2 ^ 32) :
    Terminates (step cfg) (Answers cfg) Returned (start cfg) ∧
      ∀ s r, Reach (step cfg) (Answers cfg) (start cfg) s → s.phase = .returned r →
        r = (cfg.nfiles * cfg.mbPerFile * 2 ^ 20 : ℕ) ∧
        ∀ f < cfg.nfiles, ∀ p, (dones s.log).countP (fun x => decide (Writes f p x)) =
          if p < cfg.mbPerFile * 2 ^ 20 then 1 else 0 := by
  refine ⟨terminates hcfg (running_start hcfg), ?_⟩
  intro s r h hret
  have hcomp := complete_reach hcfg hbytes hchunks h
  have hbooks := hcomp.running.books
  obtain ⟨rfl, hidle⟩ := hcomp.running.returned_eq hret
  have hall := hcomp.asked (Or.inr (Or.inr ⟨_, hret⟩))
  have hper : cfg.perFileBytes = cfg.mbPerFile * 2 ^ 20 := Nat.mul_assoc ..
  refine ⟨?_, ?_⟩
  · rw [hbooks.written_of_allAsked hidle hall, hper, Nat.mul_assoc]
  · intro f hf p
    have htiles := hbooks.tiles f
    rw [hall f hf, hper] at htiles
    exact (hbooks.ledger.settled length_pattern hidle htiles).2.1 p

/-- Two files of one MiB in chunks of 2^19 + 1 bytes, two at a time. -/
def twoFiles : Config where
  dirPath := "out"
  nfiles := 2
  mbPerFile := 1
  blockSize := 2 ^ 19 + 1
  qd := 2
  doFsyncEnd := true
  sqEntries := 2
  setup := .ok
  nfiles_lt := two_lt_uint32
  mbPerFile_lt := one_lt_uint32
  blockSize_lt := by decide
  qd_lt := two_lt_uint32

theorem undisturbed_twoFiles : Undisturbed twoFiles := ⟨by decide, by decide⟩

theorem write_manyfiles_exact_twoFiles :
    Terminates (step twoFiles) (Answers twoFiles) Returned (start twoFiles) ∧
      ∀ s r, Reach (step twoFiles) (Answers twoFiles) (start twoFiles) s →
        s.phase = .returned r →
        r = (twoFiles.nfiles * twoFiles.mbPerFile * 2 ^ 20 : ℕ) ∧
        ∀ f < twoFiles.nfiles, ∀ p, (dones s.log).countP (fun x => decide (Writes f p x)) =
          if p < twoFiles.mbPerFile * 2 ^ 20 then 1 else 0 :=
  write_manyfiles_exact twoFiles undisturbed_twoFiles (by decide) (by decide)

end WriteManyfiles
end Native
end Pyuring
