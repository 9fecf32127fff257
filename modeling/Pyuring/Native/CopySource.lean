import Pyuring.Lib.FileTree
import Pyuring.Native.CopyPathInvariant

/-!
# The source of a copy

`uring_copy_path_dynamic` on a file system, where source and destination are paths.  The
function opens the source, then opens the destination with `O_TRUNC`, and then asks for
the size of the source.  Where both paths lead to the same file, that size is zero: the
function returns 0, and what was in the file is gone.

From there on nothing can happen to the source: the pipeline writes to the file that the
destination's descriptor stands for, and to no other.
-/

namespace Pyuring
namespace Native
namespace CopySource

open Trace

/-- The files of a system, by path. -/
abbrev Fs : Type := FileTree String (SparseFile UInt8)

def ENOENT : Errno := ⟨2, by decide⟩
def ELOOP : Errno := ⟨40, by decide⟩

/-- `open` with `O_RDONLY`: the file, where permissions and limits do not forbid it. -/
def openRead (fs : Fs) (path : String) : Except Errno ℕ :=
  match fs.target path with
  | .file ino => .ok ino
  | .missing _ => .error ENOENT
  | .loop => .error ELOOP

/-- `open` with `O_CREAT | O_TRUNC | O_WRONLY`: the file, and the files after that. -/
def openTrunc (fs : Fs) (path : String) : Except Errno (ℕ × Fs) :=
  match fs.target path with
  | .file ino => .ok (ino, fs.setData ino .empty)
  | .missing path => .ok (fs.next, fs.create path .empty)
  | .loop => .error ELOOP

/-- One call: its arguments, and the parts of the outside world that do not depend on the
moment.  Where `setup` lets an `open` fail, it fails whatever the path. -/
structure Call where
  srcPath : String
  dstPath : String
  qd : ℕ
  blockSize : ℕ
  bufferSizeCb : Option BufferSizeCb
  doFsync : Bool
  progressCb : Option ProgressCb
  sqEntries : ℕ
  setup : CopyPath.Setup
  qd_lt : qd < 2 ^ 32
  blockSize_lt : blockSize < 2 ^ 32

namespace Call

variable (c : Call)

def openSrc (fs : Fs) : Except Errno ℕ :=
  match c.setup.openSrc with
  | some e => .error e
  | none => openRead fs c.srcPath

def openDst (fs : Fs) : Except Errno (ℕ × Fs) :=
  match c.setup.openDst with
  | some e => .error e
  | none => openTrunc fs c.dstPath

/-- The copy, from `fstat` on, of a source that has the bytes `src` then. -/
def config (src : List UInt8) (openSrc openDst : Option Errno) : CopyPath.Config :=
  ⟨src, c.qd, c.blockSize, c.bufferSizeCb, c.doFsync, c.progressCb, c.sqEntries,
    { c.setup with openSrc := openSrc, openDst := openDst }, c.qd_lt, c.blockSize_lt⟩

end Call

/-- The files, the one that the destination's descriptor stands for, and the copy. -/
structure State where
  fs : Fs
  dst : Option ℕ
  cfg : CopyPath.Config
  copy : CopyPath.State

/-- The function up to its pipeline. -/
def start (c : Call) (fs : Fs) : State :=
  let begin := fun (fs : Fs) (dst : Option ℕ) (cfg : CopyPath.Config) =>
    State.mk fs dst cfg (CopyPath.start cfg)
  if c.qd = 0 ∨ c.blockSize = 0 then begin fs none (c.config [] none none)
  else match c.openSrc fs with
    | .error e => begin fs none (c.config [] (some e) none)
    | .ok sfd => match c.openDst fs with
      | .error e => begin fs none (c.config [] none (some e))
      | .ok (dfd, fs) => begin fs (some dfd) (c.config (fs.data sfd).contents none none)

/-- A step of the copy; what it wrote is in the destination's file. -/
def step (s : State) (e : CopyPath.Event) : Option State :=
  (CopyPath.step s.cfg s.copy e).map fun copy => { s with
    copy := copy
    fs := match s.dst with
      | some dfd => s.fs.setData dfd copy.dst
      | none => s.fs }

/-- The bytes of the file that a path names. -/
def bytes (fs : Fs) (path : String) : Option (List UInt8) :=
  (fs.read path).map SparseFile.contents

/-- Both files are opened, they are the same, and it is not empty. -/
def Overwrites (c : Call) (fs : Fs) : Prop :=
  c.qd ≠ 0 ∧ c.blockSize ≠ 0 ∧ c.setup.openSrc = none ∧ c.setup.openDst = none ∧
    ∃ ino, fs.target c.srcPath = .file ino ∧ fs.target c.dstPath = .file ino ∧
      (fs.data ino).size ≠ 0

variable {c : Call} {fs : Fs} {s t : State}

theorem bytes_of_target {path : String} {ino : ℕ} (h : fs.target path = .file ino) :
    bytes fs path = some (fs.data ino).contents := by
  rw [bytes, FileTree.read_of_target h]
  rfl

theorem openRead_eq_ok {path : String} {ino : ℕ} (h : openRead fs path = .ok ino) :
    fs.target path = .file ino := by
  unfold openRead at h
  split at h
  · next ino' htarget => rw [htarget, Except.ok.inj h]
  · exact absurd h (by simp)
  · exact absurd h (by simp)

theorem openSrc_eq_ok {sfd : ℕ} (h : c.openSrc fs = .ok sfd) :
    fs.target c.srcPath = .file sfd := by
  unfold Call.openSrc at h
  split at h
  · exact absurd h (by simp)
  · exact openRead_eq_ok h

/-- What opening a destination does to the files. -/
theorem puts_openTrunc {fs' : Fs} {path : String} {fd : ℕ}
    (h : openTrunc fs path = .ok (fd, fs')) :
    FileTree.Puts fs fs' path fd .empty := by
  unfold openTrunc at h
  split at h
  · next ino htarget =>
    obtain ⟨rfl, rfl⟩ := Prod.mk.inj (Except.ok.inj h)
    exact FileTree.puts_setData htarget _
  · next path' htarget =>
    obtain ⟨rfl, rfl⟩ := Prod.mk.inj (Except.ok.inj h)
    exact FileTree.puts_create htarget _
  · exact absurd h (by simp)

/-- The destination is a file that is there, and empty now, or a new one. -/
theorem openDst_eq_ok {dfd : ℕ} {fs' : Fs} (h : c.openDst fs = .ok (dfd, fs')) :
    (fs.target c.dstPath = .file dfd ∧ fs' = fs.setData dfd .empty) ∨
      ∃ path, fs.target c.dstPath = .missing path ∧ dfd = fs.next ∧
        fs' = fs.create path .empty := by
  unfold Call.openDst openTrunc at h
  split at h
  · exact absurd h (by simp)
  split at h
  · next ino htarget =>
    obtain ⟨rfl, rfl⟩ := Prod.mk.inj (Except.ok.inj h)
    exact Or.inl ⟨htarget, rfl⟩
  · next path htarget =>
    obtain ⟨rfl, rfl⟩ := Prod.mk.inj (Except.ok.inj h)
    exact Or.inr ⟨path, htarget, rfl, rfl⟩
  · exact absurd h (by simp)

/-- Either some file is not opened, and all files are as they were, or both are. -/
theorem start_cases (c : Call) (fs : Fs) :
    ((start c fs).dst = none ∧ (start c fs).fs = fs ∧ ¬ Overwrites c fs) ∨
      ∃ sfd dfd fs', fs.target c.srcPath = .file sfd ∧ c.openDst fs = .ok (dfd, fs') ∧
        c.qd ≠ 0 ∧ c.blockSize ≠ 0 ∧ c.setup.openSrc = none ∧ c.setup.openDst = none ∧
        start c fs = ⟨fs', some dfd, c.config (fs'.data sfd).contents none none,
          CopyPath.start (c.config (fs'.data sfd).contents none none)⟩ := by
  unfold start
  by_cases hargs : c.qd = 0 ∨ c.blockSize = 0
  · rw [if_pos hargs]
    exact Or.inl ⟨rfl, rfl, fun h => hargs.elim h.1 h.2.1⟩
  rw [if_neg hargs]
  obtain ⟨hqd, hblock⟩ := not_or.mp hargs
  cases hsrc : c.openSrc fs with
  | error e =>
    refine Or.inl ⟨rfl, rfl, ?_⟩
    rintro ⟨_, _, hnone, _, ino, hino, _⟩
    rw [Call.openSrc, hnone] at hsrc
    simp [openRead, hino] at hsrc
  | ok sfd =>
    cases hdst : c.openDst fs with
    | error e =>
      refine Or.inl ⟨rfl, rfl, ?_⟩
      rintro ⟨_, _, _, hnone, ino, _, hino, _⟩
      rw [Call.openDst, hnone] at hdst
      simp [openTrunc, hino] at hdst
    | ok r =>
      obtain ⟨dfd, fs'⟩ := r
      refine Or.inr ⟨sfd, dfd, fs', openSrc_eq_ok hsrc, rfl, hqd, hblock, ?_, ?_, rfl⟩
      · cases h : c.setup.openSrc with
        | none => rfl
        | some e => simp [Call.openSrc, h] at hsrc
      · cases h : c.setup.openDst with
        | none => rfl
        | some e => simp [Call.openDst, h] at hdst

/-- From `s` to `t` no name changed, and only the destination's file did. -/
structure Leaves (s t : State) : Prop where
  dst : t.dst = s.dst
  target : ∀ path, t.fs.target path = s.fs.target path
  data : ∀ ino, s.dst ≠ some ino → t.fs.data ino = s.fs.data ino

theorem leaves_of_reach (h : Reach step AnyStep s t) : Leaves s t := by
  refine h.invariant (I := Leaves s) ⟨rfl, fun _ => rfl, fun _ _ => rfl⟩ ?_
  rintro u e v hu - hv
  obtain ⟨copy, -, rfl⟩ := Option.map_eq_some_iff.mp hv
  cases hdst : u.dst with
  | none => exact ⟨hdst ▸ hu.dst, hu.target, hu.data⟩
  | some dfd =>
    refine ⟨hdst ▸ hu.dst, hu.target, ?_⟩
    intro ino hino
    have hne : ino ≠ dfd := fun h => hino (by rw [← hu.dst, hdst, h])
    exact (FileTree.data_setData_of_ne hne _).trans (hu.data ino hino)

theorem contents_eq_nil_iff {f : SparseFile UInt8} : f.contents = [] ↔ f.size = 0 := by
  simp [SparseFile.contents]

/-- A source that is empty is not copied. -/
theorem entry_config_nil (c : Call) :
    ∃ r, CopyPath.entry (c.config [] none none) = .returned r := by
  rcases CopyPath.entry_cases (c.config [] none none) with h | ⟨r, -, h⟩ | ⟨h, -⟩
  · exact absurd (CopyPath.entry_eq_priming h).2.2 (Nat.lt_irrefl 0)
  · exact ⟨r, h⟩
  · exact ⟨0, h⟩

/-- Where both paths lead to one file, the call is over when that has been truncated. -/
theorem eq_start_of_same {ino : ℕ} (hsrc : fs.target c.srcPath = .file ino)
    (hdst : fs.target c.dstPath = .file ino) (h : Reach step AnyStep (start c fs) t)
    (hopened : (start c fs).dst ≠ none) :
    t = ⟨fs.setData ino .empty, some ino, c.config [] none none,
      CopyPath.start (c.config [] none none)⟩ := by
  rcases start_cases c fs with ⟨hnone, -⟩ | ⟨sfd, dfd, fs', hsfd, hdfd, -, -, -, -, heq⟩
  · exact absurd hnone hopened
  obtain rfl : ino = sfd := Target.file.inj (hsrc.symm.trans hsfd)
  rcases openDst_eq_ok hdfd with ⟨htarget, rfl⟩ | ⟨path, hmissing, -⟩
  · obtain rfl : ino = dfd := Target.file.inj (hdst.symm.trans htarget)
    have hempty : ((fs.setData ino .empty).data ino).contents = ([] : List UInt8) := by
      rw [FileTree.data_setData_self]
      rfl
    rw [hempty] at heq
    rw [heq] at h
    obtain ⟨r, hr⟩ := entry_config_nil c
    refine h.eq_of_stuck ?_
    intro e
    rw [step, CopyPath.step_of_returned (r := r) (by rw [CopyPath.start, hr]; rfl)]
    rfl
  · rw [hdst] at hmissing
    exact absurd hmissing (by simp)

/-- A source that is not the destination keeps its name and its bytes. -/
theorem bytes_of_ne {sfd dfd : ℕ} {fs' : Fs} (hsrc : fs.target c.srcPath = .file sfd)
    (hopen : c.openDst fs = .ok (dfd, fs')) (hne : fs.target c.dstPath ≠ .file sfd)
    (h : Reach step AnyStep (start c fs) t) (hfs : (start c fs).fs = fs')
    (hdst : (start c fs).dst = some dfd) :
    bytes t.fs c.srcPath = bytes fs c.srcPath := by
  have hleaves := leaves_of_reach h
  obtain ⟨hname, hdata, hdfd⟩ : fs'.target c.srcPath = .file sfd ∧
      fs'.data sfd = fs.data sfd ∧ dfd ≠ sfd := by
    rcases openDst_eq_ok hopen with ⟨htarget, rfl⟩ | ⟨path, hmissing, rfl, rfl⟩
    · have hdfd : dfd ≠ sfd := fun heq => hne (heq ▸ htarget)
      exact ⟨hsrc, FileTree.data_setData_of_ne hdfd.symm _, hdfd⟩
    · have hlt := FileTree.lt_next hsrc
      exact ⟨FileTree.target_create hmissing _ hsrc,
        FileTree.data_create_of_lt hlt _ _, (Nat.ne_of_lt hlt).symm⟩
  have hsame : t.fs.data sfd = fs.data sfd := by
    rw [hleaves.data sfd (by rw [hdst]; simpa using hdfd), hfs, hdata]
  have htarget : t.fs.target c.srcPath = .file sfd := by
    rw [hleaves.target, hfs, hname]
  rw [bytes_of_target htarget, bytes_of_target hsrc, hsame]

/-- **The source survives the call**, whatever happens in it, unless source and destination
are one file, which is not empty, and both are opened. -/
theorem source_survives_iff (c : Call) (fs : Fs) (t : State)
    (h : Reach step AnyStep (start c fs) t) :
    bytes t.fs c.srcPath = bytes fs c.srcPath ↔ ¬ Overwrites c fs := by
  rcases start_cases c fs with ⟨hnone, hfs, hnot⟩ |
    ⟨sfd, dfd, fs', hsrc, hopen, hqd, hblock, hopenSrc, hopenDst, heq⟩
  · -- no step changes the files when no destination is open
    refine iff_of_true ?_ hnot
    have hleaves := leaves_of_reach h
    have hdata : t.fs.data = fs.data := by
      ext1 ino
      rw [hleaves.data ino (by simp [hnone]), hfs]
    unfold bytes FileTree.read
    rw [hleaves.target, hfs, hdata]
  by_cases hsame : fs.target c.dstPath = .file sfd
  · rw [eq_start_of_same hsrc hsame h (by simp [heq])]
    have hempty : bytes (fs.setData sfd .empty) c.srcPath = some [] := by
      rw [bytes_of_target ((FileTree.target_setData sfd _ c.srcPath).trans hsrc),
        FileTree.data_setData_self]
      rfl
    rw [hempty, bytes_of_target hsrc, Option.some.injEq, eq_comm, contents_eq_nil_iff]
    constructor
    · rintro hsize ⟨-, -, -, -, ino, hino, -, hne⟩
      obtain rfl : sfd = ino := Target.file.inj (hsrc.symm.trans hino)
      exact hne hsize
    · intro hnot
      exact Classical.byContradiction fun hsize =>
        hnot ⟨hqd, hblock, hopenSrc, hopenDst, sfd, hsrc, hsame, hsize⟩
  · refine iff_of_true (bytes_of_ne hsrc hopen hsame h (by rw [heq]) (by rw [heq])) ?_
    rintro ⟨-, -, -, -, ino, hino, hdst, -⟩
    obtain rfl : sfd = ino := Target.file.inj (hsrc.symm.trans hino)
    exact hsame hdst

/-- The loss is silent: the call returns 0, as for a source without bytes. -/
theorem phase_of_overwrites (hover : Overwrites c fs) (hstat : c.setup.fstat = none)
    (h : Reach step AnyStep (start c fs) t) : t.copy.phase = .returned 0 := by
  obtain ⟨hqd, hblock, hopenSrc, hopenDst, ino, hsrc, hdst, hsize⟩ := id hover
  have hopened : (start c fs).dst ≠ none := by
    rcases start_cases c fs with ⟨-, -, hnot⟩ | ⟨sfd, dfd, fs', -, -, -, -, -, -, heq⟩
    · exact absurd hover hnot
    · simp [heq]
  rw [eq_start_of_same hsrc hdst h hopened]
  change CopyPath.entry (c.config [] none none) = _
  simp [CopyPath.entry, Call.config, hqd, hblock, hstat, CopyPath.Config.fileSize]

/-- A file of three bytes at `a`, and something else at `b`. -/
def twoNames (b : Node String) (hb : ∀ ino, b = .file ino → ino < 2) : Fs where
  node path := if path = "a" then some (.file 0) else if path = "b" then some b else none
  data ino := if ino = 0 then SparseFile.empty.write 0 [1, 2, 3] else .empty
  next := 2
  ino_lt path ino h := by
    split at h
    · obtain rfl := Node.file.inj (Option.some.inj h)
      exact Nat.zero_lt_two
    split at h
    · exact hb ino (Option.some.inj h)
    · exact absurd h (by simp)

/-- A copy from `a` to `b`. -/
def aToB : Call :=
  ⟨"a", "b", 1, 4096, none, false, none, 1, .ok, one_lt_uint32, by decide⟩

/-- A copy to another file. -/
theorem source_survives_iff_copied : ∃ t : State, t.copy.phase = .returned 3 ∧
    bytes t.fs "b" = some [1, 2, 3] ∧
    (bytes t.fs "a" = bytes (twoNames (.file 1) (by simp)) "a" ↔
      ¬ Overwrites aToB (twoNames (.file 1) (by simp))) := by
  have hrun : (exec step (start aToB (twoNames (.file 1) (by simp))) [.prime 1, .complete 0 3,
      .iterate 0 1, .complete 0 3, .iterate 0 0, .finish true none, .cleanup]).map
        (fun t => (t.copy.phase, bytes t.fs "b")) = some (.returned 3, some [1, 2, 3]) := rfl
  obtain ⟨t, ht, hobs⟩ := Option.map_eq_some_iff.mp hrun
  exact ⟨t, congrArg Prod.fst hobs, congrArg Prod.snd hobs,
    source_survives_iff aToB _ t (reach_anyStep_of_exec ht)⟩

/-- A copy to a symbolic link to the source leaves the source empty. -/
theorem source_lost : ¬ ∀ (c : Call) (fs : Fs) (t : State),
    Reach step AnyStep (start c fs) t → bytes t.fs c.srcPath = bytes fs c.srcPath := by
  intro h
  have hbytes := h aToB (twoNames (.link "a") (by simp)) _ (Reach.refl _)
  have hlost : bytes (start aToB (twoNames (.link "a") (by simp))).fs "a" = some [] := rfl
  have hsrc : bytes (twoNames (.link "a") (by simp)) "a" = some [1, 2, 3] := rfl
  exact absurd ((hlost.symm.trans hbytes).trans hsrc) (by decide)

end CopySource
end Native
end Pyuring
