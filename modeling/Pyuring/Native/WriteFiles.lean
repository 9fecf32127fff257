import Pyuring.Lib.Matching
import Pyuring.Native.CopySource
import Pyuring.Native.WriteManyfilesContent
import Pyuring.Native.WriteManyfilesEnds

/-!
# Writing many files of a directory

A call of `uring_write_manyfiles` on the files of a system.  It opens
`dir/file_000000.dat`, `dir/file_000001.dat` and so on, all of them before it writes anything,
and each `open` empties the file that the path leads to.  Two paths may lead to the same file,
so a write of the pipeline is a write to whatever file the descriptor stands for.

No other file is ever touched (`others_untouched`).  When the paths lead to different places
and nothing fails, all of them read as files of the size asked for, and the contents are the
alphabets of the slots, block by block (`fills_directory`).  In a directory that has none of
these names yet the paths do lead to different places, since the names are different
(`filePath_injective`, `apart_of_fresh`).
-/

namespace Pyuring
namespace Native
namespace WriteFiles

open Trace WriteManyfiles
open CopySource (Fs openTrunc puts_openTrunc)

/-- `open` of the file `i`, which may fail for other reasons than its path. -/
def openAt (cfg : Config) (i : ℕ) (fs : Fs) : Except Errno (ℕ × Fs) :=
  match cfg.setup.openFile i with
  | some e => .error e
  | none => openTrunc fs (filePath cfg.dirPath i)

/-- The loop that opens the files `is`: their descriptors, or what the function returns, and
the files after that. -/
def openAll (cfg : Config) : List ℕ → Fs → Except ℤ (List ℕ) × Fs
  | [], fs => (.ok [], fs)
  | i :: is, fs =>
    if 512 ≤ (filePath cfg.dirPath i).utf8ByteSize then (.error ENAMETOOLONG.neg, fs)
    else match openAt cfg i fs with
      | .error e => (.error e.neg, fs)
      | .ok (fd, fs) => match openAll cfg is fs with
        | (.ok fds, fs) => (.ok (fd :: fds), fs)
        | (.error r, fs) => (.error r, fs)

/-- The files, those that the descriptors stand for, and the pipeline. -/
structure State where
  fs : Fs
  fds : List ℕ
  cfg : Config
  pipe : WriteManyfiles.State

/-- The call when all files are open. -/
def opened (cfg : Config) : Config :=
  { cfg with setup := { cfg.setup with openFile := fun _ => none } }

/-- The function up to its pipeline. -/
def start (cfg : Config) (fs : Fs) : State :=
  if cfg.nfiles = 0 ∨ cfg.mbPerFile = 0 ∨ cfg.blockSize = 0 ∨ cfg.qd = 0 ∨
      ¬ cfg.setup.callocFds then
    ⟨fs, [], cfg, WriteManyfiles.start cfg⟩
  else match openAll cfg (List.range cfg.nfiles) fs with
    | (.error r, fs) => ⟨fs, [], cfg, blank cfg (.returned r)⟩
    | (.ok fds, fs) => ⟨fs, fds, opened cfg, WriteManyfiles.start (opened cfg)⟩

/-- What a step writes. -/
def State.wrote (s : State) : Event → Fs
  | .complete i res => match s.pipe.ring.outstanding[i]? with
    | none => s.fs
    | some q => match s.fds[q.file]? with
      | none => s.fs
      | some fd => s.fs.setData fd ((s.fs.data fd).write q.off (pattern q.buf res.toNat))
  | _ => s.fs

def step (s : State) (e : Event) : Option State :=
  (WriteManyfiles.step s.cfg s.pipe e).map fun pipe => { s with fs := s.wrote e, pipe := pipe }

variable {cfg : Config} {fs fs' : Fs} {s t : State}

/-! ## The names -/

/-- **Different files have different names**, whatever the width of their numbers. -/
theorem filePath_injective (dirPath : String) : Function.Injective (filePath dirPath) := by
  intro i j h
  have hdigits := congrArg String.toList h
  simp only [filePath, String.toList_append, String.toList_ofList, Nat.toString_eq_repr,
    Nat.toList_repr, List.append_assoc, List.append_cancel_left_eq] at hdigits
  rw [← List.append_assoc, ← List.append_assoc, List.append_cancel_right_eq] at hdigits
  have hvalue := congrArg (fun l => Nat.ofDigitChars 10 l 0) hdigits
  simpa only [Nat.ofDigitChars_append, Nat.ofDigitChars_replicate_zero, Nat.mul_zero,
    Nat.ofDigitChars_ten_toDigits] using hvalue

/-- The places that the paths lead to, with one for each file. -/
def Apart (cfg : Config) (fs : Fs) : Prop :=
  ∀ i < cfg.nfiles, ∀ j < cfg.nfiles, i ≠ j →
    fs.target (filePath cfg.dirPath i) ≠ fs.target (filePath cfg.dirPath j)

/-- In a directory without these names. -/
theorem apart_of_fresh (h : ∀ i < cfg.nfiles, fs.node (filePath cfg.dirPath i) = none) :
    Apart cfg fs := by
  intro i hi j hj hne heq
  have hmissing : ∀ i < cfg.nfiles,
      fs.target (filePath cfg.dirPath i) = .missing (filePath cfg.dirPath i) := by
    intro i hi
    rw [FileTree.target, FileTree.follow, h i hi]
  rw [hmissing i hi, hmissing j hj] at heq
  exact hne (filePath_injective _ (Target.missing.inj heq))

/-! ## Opening -/

theorem puts_openAt {i fd : ℕ} (h : openAt cfg i fs = .ok (fd, fs')) :
    FileTree.Puts fs fs' (filePath cfg.dirPath i) fd .empty := by
  unfold openAt at h
  split at h
  · exact absurd h (by simp)
  · exact puts_openTrunc h

/-- Whether or not all files are opened, those that are were emptied, and no other was. -/
theorem openAll_puts : ∀ {is : List ℕ} {fs : Fs}, ∃ opened fds, opened <+: is ∧
    FileTree.PutsAll fs (openAll cfg is fs).2 (opened.map (filePath cfg.dirPath)) fds .empty ∧
    ∀ fds', (openAll cfg is fs).1 = .ok fds' → opened = is ∧ fds = fds'
  | [], fs => ⟨[], [], List.nil_prefix, FileTree.putsAll_nil _ _, fun _ h =>
      ⟨rfl, Except.ok.inj h⟩⟩
  | i :: is, fs => by
    rw [openAll]
    split
    · exact ⟨[], [], List.nil_prefix, FileTree.putsAll_nil _ _, fun _ h => absurd h (by simp)⟩
    cases hopen : openAt cfg i fs with
    | error e =>
      exact ⟨[], [], List.nil_prefix, FileTree.putsAll_nil _ _, fun _ h => absurd h (by simp)⟩
    | ok r =>
      obtain ⟨fd, fs₁⟩ := r
      obtain ⟨opened, fds, hprefix, hputs, hall⟩ := @openAll_puts is fs₁
      simp only
      generalize openAll cfg is fs₁ = r at hputs hall ⊢
      obtain ⟨res, fs₂⟩ := r
      have hputs' := (puts_openAt hopen).cons hputs
      cases res with
      | error r =>
        exact ⟨i :: opened, fd :: fds, List.cons_prefix_cons.mpr ⟨rfl, hprefix⟩, hputs',
          fun _ h => absurd h (by simp)⟩
      | ok fds' =>
        obtain ⟨rfl, rfl⟩ := hall fds' rfl
        exact ⟨i :: opened, fd :: fds, List.prefix_rfl, hputs', fun _ h =>
          ⟨rfl, Except.ok.inj h⟩⟩

/-- What the function has opened when it gets to its pipeline. -/
theorem start_puts (cfg : Config) (fs : Fs) : ∃ opened fds, opened <+: List.range cfg.nfiles ∧
    FileTree.PutsAll fs (start cfg fs).fs (opened.map (filePath cfg.dirPath)) fds .empty ∧
    (start cfg fs).fds.Sublist fds := by
  unfold start
  split
  · exact ⟨[], [], List.nil_prefix, FileTree.putsAll_nil _ _, List.Sublist.refl _⟩
  obtain ⟨opened, fds, hprefix, hputs, hall⟩ := @openAll_puts cfg (List.range cfg.nfiles) fs
  generalize openAll cfg (List.range cfg.nfiles) fs = r at hputs hall ⊢
  obtain ⟨res, fs₁⟩ := r
  cases res with
  | error r => exact ⟨opened, fds, hprefix, hputs, List.nil_sublist _⟩
  | ok fds' =>
    obtain ⟨rfl, rfl⟩ := hall fds' rfl
    exact ⟨_, fds, hprefix, hputs, List.Sublist.refl _⟩

/-! ## Any run -/

/-- No name changes after the files were opened, and no file but those. -/
structure Leaves (s t : State) : Prop where
  fds : t.fds = s.fds
  target : ∀ path, t.fs.target path = s.fs.target path
  data : ∀ ino, ino ∉ s.fds → t.fs.data ino = s.fs.data ino

theorem wrote_cases (s : State) (e : Event) : s.wrote e = s.fs ∨
    ∃ fd d, fd ∈ s.fds ∧ s.wrote e = s.fs.setData fd d := by
  unfold State.wrote
  split
  · split
    · exact Or.inl rfl
    split
    · exact Or.inl rfl
    · next fd hfd => exact Or.inr ⟨fd, _, List.mem_of_getElem? hfd, rfl⟩
  · exact Or.inl rfl

theorem leaves_of_reach {P : State → Event → Prop} (h : Reach step P s t) : Leaves s t := by
  refine h.invariant (I := Leaves s) ⟨rfl, fun _ => rfl, fun _ _ => rfl⟩ ?_
  rintro u e v hu - hv
  obtain ⟨pipe, -, rfl⟩ := Option.map_eq_some_iff.mp hv
  rcases wrote_cases u e with hsame | ⟨fd, d, hfd, hset⟩
  · exact ⟨hu.fds, fun path => by rw [← hu.target, ← hsame], fun ino hino => by
      rw [← hu.data ino hino, ← hsame]⟩
  · refine ⟨hu.fds, fun path => ?_, fun ino hino => ?_⟩
    · show (u.wrote e).target path = _
      rw [hset, FileTree.target_setData, hu.target]
    · show (u.wrote e).data ino = _
      have hne : ino ≠ fd := by
        rintro rfl
        exact hino (hu.fds ▸ hfd)
      rw [hset, FileTree.data_setData_of_ne hne, hu.data ino hino]

/-- All that changes is at the places of the names. -/
theorem confined_of_reach {P : State → Event → Prop} (h : Reach step P (start cfg fs) t) :
    FileTree.Confined fs t.fs ((List.range cfg.nfiles).map (filePath cfg.dirPath)) := by
  obtain ⟨opened, fds, hprefix, hputs, hsub⟩ := start_puts cfg fs
  have hleaves := leaves_of_reach h
  have hconfined := hputs.confined hleaves.target fun i hi =>
    hleaves.data i fun hfd => hi (hsub.subset hfd)
  exact hconfined.mono (List.map_subset _ (List.IsPrefix.subset hprefix))

theorem outside_names {path : String} :
    fs.Outside ((List.range cfg.nfiles).map (filePath cfg.dirPath)) path ↔
      ∀ i < cfg.nfiles, fs.target path ≠ fs.target (filePath cfg.dirPath i) := by
  simp [FileTree.Outside]

/-- **No other file is touched**, in every run, whatever fails in it: a path that led to none of
the places of the names leads where it did and reads as it did. -/
theorem others_untouched (cfg : Config) (fs : Fs) (h : Reach step AnyStep (start cfg fs) t)
    {path : String}
    (hpath : ∀ i < cfg.nfiles, fs.target path ≠ fs.target (filePath cfg.dirPath i)) :
    t.fs.target path = fs.target path ∧ t.fs.read path = fs.read path :=
  (confined_of_reach h).outside path (outside_names.mpr hpath)

/-- Two files, of which the second may not be opened. -/
def refused : Config :=
  { twoFiles with setup := { Setup.ok with
      openFile := fun i => if i = 1 then some ⟨13, by decide⟩ else none } }

/-- The call fails when it has already created the first file. -/
theorem others_untouched_refused : ∃ t : State, t.pipe.phase = .returned (-13) ∧
    t.fs.read "out/file_000000.dat" ≠ none ∧
    t.fs.target "a" = (CopySource.twoNames (.file 1) (by simp)).target "a" ∧
    t.fs.read "a" = (CopySource.twoNames (.file 1) (by simp)).read "a" :=
  ⟨start refused (CopySource.twoNames (.file 1) (by simp)), rfl, by
    have hread : (start refused (CopySource.twoNames (.file 1) (by simp))).fs.read
        "out/file_000000.dat" = some .empty := rfl
    rw [hread]
    simp,
    others_untouched refused _ (Reach.refl _) (by decide)⟩

/-! ## What only the kernel does -/

theorem files_pick (cfg : Config) : ∀ (n : ℕ) (s : WriteManyfiles.State),
    (pick cfg n s).2.files = s.files
  | 0, _ => rfl
  | n + 1, s => by
    rw [pick]
    simp only
    split
    · exact files_pick cfg n _
    split
    · exact files_pick cfg n _
    split <;> split <;> rfl

theorem files_enqueue (cfg : Config) : ∀ (n : ℕ) (s : WriteManyfiles.State),
    (enqueue cfg n s).files = s.files
  | 0, _ => rfl
  | n + 1, s => by
    rw [enqueue]
    split
    · rfl
    next slot rest hfree =>
    split
    swap
    · rfl
    have hpick := files_pick cfg cfg.nfiles s
    split
    · next u hu => rw [hu] at hpick; exact hpick
    · next f off len u hu =>
      rw [hu] at hpick
      have hone : (enqueueOne cfg slot rest f off len u).2.files = u.files := by
        unfold enqueueOne
        simp only
        split <;> rfl
      simp only
      split
      · rw [files_enqueue cfg n, hone]
        exact hpick
      · rw [hone]
        exact hpick

theorem files_awaitAny (s : WriteManyfiles.State) : s.awaitAny.files = s.files := rfl

/-- Only the kernel writes to the files. -/
theorem files_step {s t : WriteManyfiles.State} {e : Event}
    (ht : WriteManyfiles.step cfg s e = some t) (he : ∀ i res, e ≠ .complete i res) :
    t.files = s.files := by
  cases step_cases ht with
  | complete => exact absurd rfl (he _ _)
  | fill hphase =>
    have henqueue := files_enqueue cfg s.freeSlots.length s
    unfold fill
    split
    swap
    · rfl
    simp only
    split
    · rw [files_awaitAny, henqueue]
    split
    · exact henqueue
    · rw [files_awaitAny]
      exact henqueue
  | waitFails => rfl
  | waits => rfl
  | reap hphase =>
    unfold reap
    simp only
    split
    · rfl
    · exact (reapBatch_frame cfg _ _ _ _).2.2.1
  | waitOneFails => rfl
  | waitOneReaps => exact (reapBatch_frame cfg _ _ _ _).2.2.1
  | finish hphase =>
    unfold finish
    split
    swap
    · rfl
    rcases fails_fsyncAll _ (List.range cfg.nfiles) s with ⟨l, -, heq⟩ | ⟨l, r, -, -, heq⟩ <;>
      rw [heq]
  | cleanup hphase => rfl

/-! ## Runs in which nothing fails -/

/-- The files of the pipeline are those that its descriptors stand for. -/
structure Held (s : State) : Prop where
  nodup : s.fds.Nodup
  data : ∀ f fd, s.fds[f]? = some fd → s.fs.data fd = s.pipe.files f

theorem Held.step (h : Held s) {e : Event} (ht : step s e = some t) : Held t := by
  obtain ⟨pipe, hpipe, rfl⟩ := Option.map_eq_some_iff.mp ht
  refine ⟨h.nodup, fun f fd hfd => ?_⟩
  by_cases he : ∃ i res, e = .complete i res
  swap
  · have hfiles := files_step hpipe fun i res hcontra => he ⟨i, res, hcontra⟩
    have hwrote : s.wrote e = s.fs := by
      cases e with
      | complete i res => exact absurd ⟨i, res, rfl⟩ he
      | _ => rfl
    simp only [hwrote, hfiles]
    exact h.data f fd hfd
  obtain ⟨i, res, rfl⟩ := he
  cases step_cases hpipe with
  | complete hrun hc =>
    obtain ⟨q, ring, hring, -, rfl⟩ := complete_cases hc
    obtain ⟨hq, -⟩ := CompletionRing.complete_eq_some.mp hring
    simp only [State.wrote, hq]
    by_cases hf : f = q.file
    · subst hf
      simp only [hfd, FileTree.data_setData_self, Function.update_self]
      rw [h.data _ _ hfd]
    · rw [Function.update_of_ne hf]
      cases hfd' : s.fds[q.file]? with
      | none => exact h.data f fd hfd
      | some fd' =>
        have hne : fd ≠ fd' := by
          rintro rfl
          obtain ⟨hlt, hget⟩ := List.getElem?_eq_some_iff.mp hfd
          obtain ⟨hlt', hget'⟩ := List.getElem?_eq_some_iff.mp hfd'
          exact hf ((h.nodup.getElem_inj_iff).mp (hget.trans hget'.symm))
        rw [FileTree.data_setData_of_ne hne]
        exact h.data f fd hfd

/-- Nothing around the writes goes wrong. -/
structure Quiet (cfg : Config) (fs : Fs) : Prop where
  setup : cfg.setup = .ok
  nfiles_pos : 0 < cfg.nfiles
  mbPerFile_pos : 0 < cfg.mbPerFile
  blockSize_pos : 0 < cfg.blockSize
  qd_pos : 0 < cfg.qd
  room : cfg.qd ≤ cfg.sqEntries
  short : ∀ i < cfg.nfiles, (filePath cfg.dirPath i).utf8ByteSize < 512
  ends : ∀ i < cfg.nfiles, fs.target (filePath cfg.dirPath i) ≠ .loop

theorem opened_eq (h : cfg.setup = .ok) : opened cfg = cfg := by
  cases cfg
  simp only at h
  subst h
  rfl

theorem Quiet.undisturbed (h : Quiet cfg fs) : Undisturbed cfg where
  entry := by
    have hopen : (List.range cfg.nfiles).findSome? (openOne cfg) = none := by
      refine List.findSome?_eq_none_iff.mpr fun i hi => ?_
      unfold openOne
      rw [if_neg (Nat.not_le.mpr (h.short i (List.mem_range.mp hi))), h.setup]
      rfl
    have hn := h.nfiles_pos
    have hmb := h.mbPerFile_pos
    have hblock := h.blockSize_pos
    have hqd := h.qd_pos
    unfold entry
    rw [if_neg (by omega), hopen, h.setup]
    simp [Setup.ok]
  room := h.room

/-- All files are opened. -/
theorem openAll_ok (hsetup : cfg.setup = .ok) : ∀ (is : List ℕ) (fs : Fs),
    (∀ i ∈ is, (filePath cfg.dirPath i).utf8ByteSize < 512 ∧
      fs.target (filePath cfg.dirPath i) ≠ .loop) → ∃ fds, (openAll cfg is fs).1 = .ok fds
  | [], fs, _ => ⟨[], rfl⟩
  | i :: is, fs, h => by
    obtain ⟨hshort, hloop⟩ := h i List.mem_cons_self
    obtain ⟨fd, fs₁, hopen⟩ : ∃ fd fs₁, openAt cfg i fs = .ok (fd, fs₁) := by
      simp only [openAt, hsetup, Setup.ok, openTrunc]
      cases htarget : fs.target (filePath cfg.dirPath i) with
      | file ino => exact ⟨_, _, rfl⟩
      | missing path => exact ⟨_, _, rfl⟩
      | loop => exact absurd htarget hloop
    have hputs := puts_openAt hopen
    obtain ⟨fds, hrest⟩ := openAll_ok hsetup is fs₁ fun j hj => by
      obtain ⟨hshort, hloop⟩ := h j (List.mem_cons_of_mem i hj)
      refine ⟨hshort, ?_⟩
      by_cases hsame : fs.target (filePath cfg.dirPath j) = fs.target (filePath cfg.dirPath i)
      · rw [hputs.same _ hsame]
        simp
      · rw [(hputs.others _ hsame).1]
        exact hloop
    refine ⟨fd :: fds, ?_⟩
    rw [openAll, if_neg (Nat.not_le.mpr hshort), hopen]
    simp only
    generalize openAll cfg is fs₁ = r at hrest ⊢
    obtain ⟨res, fs₂⟩ := r
    obtain rfl : res = .ok fds := hrest
    rfl

theorem start_of_quiet (h : Quiet cfg fs) : ∃ fds fs', start cfg fs =
      ⟨fs', fds, cfg, WriteManyfiles.start cfg⟩ ∧
    FileTree.PutsAll fs fs' ((List.range cfg.nfiles).map (filePath cfg.dirPath)) fds .empty := by
  obtain ⟨fds, hfds⟩ := openAll_ok h.setup (List.range cfg.nfiles) fs fun i hi =>
    ⟨h.short i (List.mem_range.mp hi), h.ends i (List.mem_range.mp hi)⟩
  obtain ⟨opened', fds', -, hputs, hall⟩ := @openAll_puts cfg (List.range cfg.nfiles) fs
  obtain ⟨rfl, rfl⟩ := hall fds hfds
  refine ⟨fds', (openAll cfg (List.range cfg.nfiles) fs).2, ?_, hputs⟩
  have hn := h.nfiles_pos
  have hmb := h.mbPerFile_pos
  have hblock := h.blockSize_pos
  have hqd := h.qd_pos
  have hcalloc : cfg.setup.callocFds = true := by rw [h.setup]; rfl
  unfold start
  rw [if_neg (by simp only [hcalloc, not_true, or_false]; omega)]
  generalize openAll cfg (List.range cfg.nfiles) fs = r at hfds ⊢
  obtain ⟨res, fs₁⟩ := r
  obtain rfl : res = .ok fds' := hfds
  simp only [opened_eq h.setup]

/-- The alphabets of slots: each block of the file has the letters of one slot. -/
def Lettered (cfg : Config) (f : SparseFile UInt8) : Prop :=
  ∀ m, ∃ slot < cfg.qd, ∀ p < f.size, p / cfg.blockSize = m →
    f.byte p = some (UInt8.ofNat (97 + (slot + p % cfg.blockSize) % 26))

theorem lettered_of_complete {s : WriteManyfiles.State} (hcfg : Undisturbed cfg)
    (h : Complete cfg s) (hret : WriteManyfiles.Returned s) {f : ℕ} (hf : f < cfg.nfiles) :
    (s.files f).size = cfg.perFileBytes ∧ Lettered cfg (s.files f) := by
  have hcontent := h.running.content hret
  have hoff : s.fileOff f = cfg.perFileBytes := h.asked (Or.inr (Or.inr hret)) f hf
  have hsize : (s.files f).size = cfg.perFileBytes := (hcontent.size f).trans hoff
  refine ⟨hsize, fun m => ?_⟩
  obtain ⟨-, -, hblock, hqd⟩ := hcfg.pos
  rcases Nat.lt_or_ge (cfg.blockSize * m) cfg.perFileBytes with hm | hm
  · obtain ⟨q, hq, rfl, hqoff, -⟩ := h.running.exists_chunk (hoff.symm ▸ hm)
    rw [Nat.mul_div_cancel_left m hblock] at hqoff
    obtain ⟨-, hslot, -, -, hlen, -⟩ := h.running.books.write q hq
    refine ⟨q.buf, hslot, fun p hp hpm => ?_⟩
    have hmod := Nat.mod_lt p hblock
    have hsplit := Nat.div_add_mod p cfg.blockSize
    rw [hpm, ← hqoff] at hsplit
    -- the chunk is a whole block, or reaches to the end of the file
    have hlt : p % cfg.blockSize < q.len := by
      rw [hlen, Config.want]
      split <;> omega
    have hbyte := hcontent.chunk q hq _ hlt
    rwa [hsplit] at hbyte
  · refine ⟨0, hqd, fun p hp hpm => ?_⟩
    have hle := Nat.div_mul_le_self p cfg.blockSize
    rw [hpm, Nat.mul_comm] at hle
    omega

def Returned (s : State) : Prop := WriteManyfiles.Returned s.pipe

theorem matches_pipe (cfg : Config) :
    Matches (fun (t : State) u => t.cfg = cfg ∧ t.pipe = u) step (WriteManyfiles.step cfg) where
  forth := by
    rintro t - e t' ⟨hcfg, rfl⟩ ht
    obtain ⟨pipe, hpipe, rfl⟩ := Option.map_eq_some_iff.mp ht
    exact ⟨pipe, hcfg ▸ hpipe, hcfg, rfl⟩
  back := by
    rintro t - e u ⟨hcfg, rfl⟩ hu
    exact ⟨_, Option.map_eq_some_iff.mpr ⟨u, hcfg.symm ▸ hu, rfl⟩, hcfg, rfl⟩

theorem terminates_of_quiet (hquiet : Quiet cfg fs) :
    Terminates step (fun s => Answers cfg s.pipe) Returned (start cfg fs) := by
  have hcfg := hquiet.undisturbed
  obtain ⟨fds, fs', hstart, -⟩ := start_of_quiet hquiet
  rw [hstart]
  exact (matches_pipe cfg).terminates (fun t u e hR => by rw [hR.2])
    (fun t u hR hu => by unfold Returned; rw [hR.2]; exact hu) ⟨rfl, rfl⟩
    (terminates hcfg (running_start hcfg))

/-- Each name reads as the file that was written to its descriptor, when the kernel completes
all writes in full. -/
theorem filled_of_returned (hquiet : Quiet cfg fs) (hapart : Apart cfg fs)
    (hbytes : cfg.nfiles * cfg.mbPerFile * 2 ^ 20 < 2 ^ 63) (hchunks : cfg.chunks < 2 ^ 32) {r : ℤ}
    (ht : Reach step (fun s => Answers cfg s.pipe) (start cfg fs) t)
    (hret : t.pipe.phase = .returned r) :
    r = (cfg.nfiles * cfg.mbPerFile * 2 ^ 20 : ℕ) ∧
      ∀ i < cfg.nfiles, ∃ f, t.fs.read (filePath cfg.dirPath i) = some f ∧
        f.size = cfg.mbPerFile * 2 ^ 20 ∧ Lettered cfg f := by
  have hcfg := hquiet.undisturbed
  obtain ⟨fds, fs', hstart, hputs⟩ := start_of_quiet hquiet
  rw [hstart] at ht
  have hleaves := leaves_of_reach ht
  have hheld : Held t := ht.invariant (I := Held) ⟨?_, ?_⟩ fun _ _ _ hu _ hv => hu.step hv
  · obtain ⟨u, hu, -, rfl⟩ := (matches_pipe cfg).reach (fun t u e hR he => by rw [← hR.2]; exact he)
      ⟨rfl, rfl⟩ ht
    have hcomp := complete_reach hcfg hbytes hchunks hu
    obtain ⟨hr, hidle⟩ := hcomp.running.returned_eq hret
    have hall := hcomp.asked (Or.inr (Or.inr ⟨r, hret⟩))
    have hper : cfg.perFileBytes = cfg.mbPerFile * 2 ^ 20 := Nat.mul_assoc ..
    refine ⟨?_, fun i hi => ?_⟩
    · rw [hr, hcomp.running.books.written_of_allAsked hidle hall, hper, Nat.mul_assoc]
    · obtain ⟨hsize, hletters⟩ := lettered_of_complete hcfg hcomp ⟨r, hret⟩ hi
      refine ⟨t.pipe.files i, ?_, hsize.trans hper, hletters⟩
      obtain ⟨fd, hfd, htarget⟩ : ∃ fd, fds[i]? = some fd ∧
          fs'.target (filePath cfg.dirPath i) = .file fd := by
        have hlen : i < fds.length := by
          rw [← hputs.targets.length_eq]
          simpa using hi
        have hget := hputs.targets.get (i := i) (by simpa using hi) hlen
        exact ⟨fds[i], List.getElem?_eq_getElem hlen, by simpa using hget⟩
      rw [FileTree.read_of_target ((hleaves.target _).trans htarget)]
      exact congrArg some (hheld.data i fd (by rw [hleaves.fds]; exact hfd))
  · refine hputs.nodup ?_
    rw [List.pairwise_map]
    exact List.nodup_range.imp_of_mem fun hi hj hne =>
      hapart _ (List.mem_range.mp hi) _ (List.mem_range.mp hj) hne
  · intro f fd hfd
    have hmem : fd ∈ fds := List.mem_of_getElem? hfd
    simp only [hputs.data, if_pos hmem]
    rfl

/-- **The directory is filled.**  When the names lead to different places, nothing fails and the
kernel completes all writes in full, in whatever order and however they are reaped, the call
returns, with the size of all files together; each name then reads as a file of the size asked
for, without a hole, each block of it in the letters of one slot; and every path that led
elsewhere reads as before. -/
theorem fills_directory (cfg : Config) (fs : Fs) (hquiet : Quiet cfg fs) (hapart : Apart cfg fs)
    (hbytes : cfg.nfiles * cfg.mbPerFile * 2 ^ 20 < 2 ^ 63) (hchunks : cfg.chunks < 2 ^ 32) :
    Terminates step (fun s => Answers cfg s.pipe) Returned (start cfg fs) ∧
      ∀ t r, Reach step (fun s => Answers cfg s.pipe) (start cfg fs) t →
        t.pipe.phase = .returned r →
        r = (cfg.nfiles * cfg.mbPerFile * 2 ^ 20 : ℕ) ∧
        (∀ i < cfg.nfiles, ∃ f, t.fs.read (filePath cfg.dirPath i) = some f ∧
          f.size = cfg.mbPerFile * 2 ^ 20 ∧ Lettered cfg f) ∧
        ∀ path, (∀ i < cfg.nfiles, fs.target path ≠ fs.target (filePath cfg.dirPath i)) →
          t.fs.read path = fs.read path := by
  refine ⟨terminates_of_quiet hquiet, fun t r ht hret => ?_⟩
  obtain ⟨hr, hfilled⟩ := filled_of_returned hquiet hapart hbytes hchunks ht hret
  exact ⟨hr, hfilled, fun path hpath =>
    ((confined_of_reach ht).outside path (outside_names.mpr hpath)).2⟩

/-- An empty directory. -/
def emptyFs : Fs := ⟨fun _ => none, fun _ => .empty, 0, fun _ _ h => absurd h (by simp)⟩

theorem fills_directory_twoFiles :
    Terminates step (fun s => Answers twoFiles s.pipe) Returned (start twoFiles emptyFs) ∧
      ∀ t r, Reach step (fun s => Answers twoFiles s.pipe) (start twoFiles emptyFs) t →
        t.pipe.phase = .returned r →
        r = (twoFiles.nfiles * twoFiles.mbPerFile * 2 ^ 20 : ℕ) ∧
        (∀ i < twoFiles.nfiles, ∃ f, t.fs.read (filePath twoFiles.dirPath i) = some f ∧
          f.size = twoFiles.mbPerFile * 2 ^ 20 ∧ Lettered twoFiles f) ∧
        ∀ path, (∀ i < twoFiles.nfiles,
            emptyFs.target path ≠ emptyFs.target (filePath twoFiles.dirPath i)) →
          t.fs.read path = emptyFs.read path :=
  fills_directory twoFiles emptyFs
    ⟨rfl, by decide, by decide, by decide, by decide, by decide, by decide, by decide⟩
    (apart_of_fresh fun _ _ => rfl) (by decide) (by decide)

end WriteFiles
end Native
end Pyuring
