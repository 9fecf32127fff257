import Mathlib.Data.Nat.Notation
import Mathlib.Data.List.Forall2
import Mathlib.Logic.Function.Basic

/-!
# Names, links and files

A file system as far as names matter: a path names a file or a symbolic link to another
path, and a file is known by its number, so that several paths may name the same file.
`target` follows links, as often as the system is willing to, and says what is at their
end: a file, a path where nothing is yet, or nothing since the links do not end.

Writing to a file leaves all names alone (`target_setData`), and creating a file changes
what is at the end of a path only where nothing was (`target_create`).

`Puts` is what both have in common: one path leads to a given file with given data, and a path
that led elsewhere reads as before.  `PutsAll` is the same for several paths, one after the
other; when they led to different places, they lead to different files.

`Confined` forgets what was put there.  It says of any number of such changes which paths they
are confined to, and so composes (`Confined.trans`): a path that leads to none of their places
(`Outside`) leads where it did and reads as it did, and paths lead to one place afterwards
exactly when they did before.
-/

namespace Pyuring

variable {π φ : Type*}

/-- What a path names. -/
inductive Node (π : Type*) where
  | file (ino : ℕ)
  | link (path : π)
  deriving DecidableEq, Repr

/-- What is at the end of the links of a path. -/
inductive Target (π : Type*) where
  | file (ino : ℕ)
  | missing (path : π)
  | loop
  deriving DecidableEq, Repr

/-- Names and files; the numbers of the files are below `next`. -/
structure FileTree (π φ : Type*) where
  node : π → Option (Node π)
  data : ℕ → φ
  next : ℕ
  ino_lt : ∀ path ino, node path = some (.file ino) → ino < next

namespace FileTree

/-- Follow at most `n` names. -/
def follow (node : π → Option (Node π)) : ℕ → π → Target π
  | 0, _ => .loop
  | n + 1, path => match node path with
    | none => .missing path
    | some (.file ino) => .file ino
    | some (.link path) => follow node n path

/-- What a path leads to: a name and up to 40 links. -/
def target (t : FileTree π φ) (path : π) : Target π := follow t.node 41 path

/-- The file that a path leads to, if it leads to one. -/
def read (t : FileTree π φ) (path : π) : Option φ :=
  match t.target path with
  | .file ino => some (t.data ino)
  | .missing _ => none
  | .loop => none

/-- Change what is in a file. -/
def setData (t : FileTree π φ) (ino : ℕ) (d : φ) : FileTree π φ :=
  { t with data := Function.update t.data ino d }

/-- Create a file at a path, with a new number. -/
def create [DecidableEq π] (t : FileTree π φ) (path : π) (d : φ) : FileTree π φ where
  node := Function.update t.node path (some (.file t.next))
  data := Function.update t.data t.next d
  next := t.next + 1
  ino_lt := by
    intro p ino hp
    by_cases hpath : p = path
    · rw [hpath, Function.update_self] at hp
      rw [← Node.file.inj (Option.some.inj hp)]
      exact Nat.lt_succ_self _
    · rw [Function.update_of_ne hpath] at hp
      exact Nat.lt_succ_of_lt (t.ino_lt p ino hp)

variable {t : FileTree π φ}

@[simp] theorem target_setData (ino : ℕ) (d : φ) (path : π) :
    (t.setData ino d).target path = t.target path := rfl

@[simp] theorem data_setData_self (ino : ℕ) (d : φ) : (t.setData ino d).data ino = d :=
  Function.update_self _ _ _

theorem data_setData_of_ne {ino ino' : ℕ} (h : ino' ≠ ino) (d : φ) :
    (t.setData ino d).data ino' = t.data ino' :=
  Function.update_of_ne h _ _

theorem read_of_target {path : π} {ino : ℕ} (h : t.target path = .file ino) :
    t.read path = some (t.data ino) := by
  rw [read, h]

theorem lt_next_of_follow {ino : ℕ} : ∀ {n : ℕ} {path : π},
    follow t.node n path = .file ino → ino < t.next
  | 0, path, h => absurd h (by simp [follow])
  | n + 1, path, h => by
    rw [follow] at h
    cases hnode : t.node path with
    | none =>
      rw [hnode] at h
      exact absurd h (by simp)
    | some node =>
      rw [hnode] at h
      cases node with
      | file ino' =>
        obtain rfl := Target.file.inj h
        exact t.ino_lt path _ hnode
      | link path' => exact lt_next_of_follow h

/-- A path leads to files that exist. -/
theorem lt_next {path : π} {ino : ℕ} (h : t.target path = .file ino) : ino < t.next :=
  lt_next_of_follow h

theorem node_of_follow_missing {path' : π} {node : π → Option (Node π)} : ∀ {n : ℕ} {path : π},
    follow node n path = .missing path' → node path' = none
  | 0, path, h => absurd h (by simp [follow])
  | n + 1, path, h => by
    rw [follow] at h
    cases hnode : node path with
    | none =>
      rw [hnode] at h
      rw [← Target.missing.inj h, hnode]
    | some nd =>
      rw [hnode] at h
      cases nd with
      | file ino => exact absurd h (by simp)
      | link path'' => exact node_of_follow_missing h

section Create

variable [DecidableEq π]

theorem follow_update {node : π → Option (Node π)} {path : π} (hpath : node path = none)
    (new : Node π) {ino : ℕ} : ∀ {n : ℕ} {p : π}, follow node n p = .file ino →
      follow (Function.update node path (some new)) n p = .file ino
  | 0, p, h => absurd h (by simp [follow])
  | n + 1, p, h => by
    rw [follow] at h
    have hne : p ≠ path := by
      rintro rfl
      rw [hpath] at h
      exact absurd h (by simp)
    rw [follow, Function.update_of_ne hne]
    cases hnode : node p with
    | none =>
      rw [hnode] at h
      exact absurd h (by simp)
    | some nd =>
      rw [hnode] at h
      cases nd with
      | file ino' => exact h
      | link p' => exact follow_update hpath new h

/-- Creating a file leaves the files that are there alone. -/
theorem data_create_of_lt {ino : ℕ} (h : ino < t.next) (path : π) (d : φ) :
    (t.create path d).data ino = t.data ino :=
  Function.update_of_ne (Nat.ne_of_lt h) _ _

/-- A path that leads to a file still does when a file is created elsewhere. -/
theorem target_create {path path' : π} {ino : ℕ} (hmissing : t.target path' = .missing path)
    (d : φ) {p : π} (h : t.target p = .file ino) : (t.create path d).target p = .file ino :=
  follow_update (node_of_follow_missing hmissing) _ h

theorem follow_update_missing {node : π → Option (Node π)} {path : π} (ino : ℕ) :
    ∀ {n : ℕ} {p : π}, follow node n p = .missing path →
      follow (Function.update node path (some (.file ino))) n p = .file ino
  | 0, p, h => absurd h (by simp [follow])
  | n + 1, p, h => by
    by_cases hp : p = path
    · rw [follow, hp, Function.update_self]
    rw [follow] at h
    rw [follow, Function.update_of_ne hp]
    cases hnode : node p with
    | none =>
      rw [hnode] at h
      exact absurd (Target.missing.inj h) hp
    | some nd =>
      rw [hnode] at h
      cases nd with
      | file ino' => exact absurd h (by simp)
      | link p' => exact follow_update_missing ino h

theorem follow_update_of_ne {node : π → Option (Node π)} {path : π} (hpath : node path = none)
    (new : Node π) : ∀ {n : ℕ} {p : π}, follow node n p ≠ .missing path →
      follow (Function.update node path (some new)) n p = follow node n p
  | 0, p, _ => rfl
  | n + 1, p, h => by
    have hp : p ≠ path := by
      rintro rfl
      exact h (by rw [follow, hpath])
    rw [follow] at h
    rw [follow, follow, Function.update_of_ne hp]
    cases hnode : node p with
    | none => rfl
    | some nd =>
      rw [hnode] at h
      cases nd with
      | file ino' => rfl
      | link p' => exact follow_update_of_ne hpath new h

/-- Creating a file where a path leads to nothing makes it lead there. -/
theorem target_create_self {p path : π} (h : t.target p = .missing path) (d : φ) :
    (t.create path d).target p = .file t.next :=
  follow_update_missing t.next h

/-- All paths that lead elsewhere stay as they are. -/
theorem target_create_of_ne {p path p' : π} (hpath : t.target p = .missing path)
    (h : t.target p' ≠ t.target p) (d : φ) : (t.create path d).target p' = t.target p' :=
  follow_update_of_ne (node_of_follow_missing hpath) _ (hpath ▸ h)

end Create

/-! ## Putting data at a path -/

/-- File `ino` has the data `d`, all paths that led where `path` did lead to it, and no other
path does or leads elsewhere than it did. -/
structure Puts (t u : FileTree π φ) (path : π) (ino : ℕ) (d : φ) : Prop where
  data : u.data = Function.update t.data ino d
  keeps : ∀ p i, t.target p = .file i → u.target p = .file i
  same : ∀ p, t.target p = t.target path → u.target p = .file ino
  others : ∀ p, t.target p ≠ t.target path → u.target p = t.target p ∧ u.target p ≠ .file ino

variable {u v : FileTree π φ} {path : π} {ino : ℕ} {d : φ}

theorem Puts.target (h : Puts t u path ino d) : u.target path = .file ino := h.same path rfl

theorem Puts.read (h : Puts t u path ino d) : u.read path = some d := by
  rw [read_of_target h.target, h.data, Function.update_self]

/-- A path leads where it did, and the files that changed are not there. -/
theorem read_congr {p : π} (htarget : u.target p = t.target p)
    (hdata : ∀ i, t.target p = .file i → u.data i = t.data i) : u.read p = t.read p := by
  unfold FileTree.read
  rw [htarget]
  cases hp : t.target p with
  | file i => simp only [hdata i hp]
  | missing p' => rfl
  | loop => rfl

theorem Puts.read_of_ne (h : Puts t u path ino d) {p : π} (hp : t.target p ≠ t.target path) :
    u.read p = t.read p := by
  obtain ⟨htarget, hne⟩ := h.others p hp
  refine read_congr htarget fun i hi => ?_
  rw [h.data, Function.update_of_ne]
  rintro rfl
  exact hne (htarget.trans hi)

/-- Paths lead to one place exactly when they did. -/
theorem Puts.places (h : Puts t u path ino d) (p q : π) :
    u.target p = u.target q ↔ t.target p = t.target q := by
  by_cases hp : t.target p = t.target path
  · rw [h.same p hp, hp]
    by_cases hq : t.target q = t.target path
    · exact iff_of_true (h.same q hq).symm hq.symm
    · exact iff_of_false (h.others q hq).2.symm (Ne.symm hq)
  · obtain ⟨htarget, hne⟩ := h.others p hp
    by_cases hq : t.target q = t.target path
    · rw [h.same q hq, hq]
      exact iff_of_false hne hp
    · rw [htarget, (h.others q hq).1]

/-- What was put there is written over. -/
theorem Puts.setData (h : Puts t u path ino d) (d' : φ) :
    Puts t (u.setData ino d') path ino d' where
  data := by
    unfold FileTree.setData
    simp only [h.data, Function.update_idem]
  keeps := h.keeps
  same := h.same
  others := h.others

theorem puts_setData (h : t.target path = .file ino) (d : φ) :
    Puts t (t.setData ino d) path ino d where
  data := rfl
  keeps _ _ hp := hp
  same _ hp := hp.trans h
  others _ hp := ⟨rfl, h ▸ hp⟩

theorem puts_create [DecidableEq π] {path' : π} (h : t.target path = .missing path') (d : φ) :
    Puts t (t.create path' d) path t.next d where
  data := rfl
  keeps _ _ hp := target_create h d hp
  same _ hp := target_create_self (hp.trans h) d
  others p hp := by
    have htarget := target_create_of_ne h hp d
    refine ⟨htarget, fun hnext => ?_⟩
    exact absurd (lt_next (htarget.symm.trans hnext)) (Nat.lt_irrefl _)

/-! ## Putting data at several paths in turn -/

/-- The files `inos` have the data `d`, and the `paths` lead to them. -/
structure PutsAll (t u : FileTree π φ) (paths : List π) (inos : List ℕ) (d : φ) : Prop where
  targets : List.Forall₂ (fun p i => u.target p = .file i) paths inos
  data : ∀ i, u.data i = if i ∈ inos then d else t.data i
  keeps : ∀ p i, t.target p = .file i → u.target p = .file i
  places : ∀ p q, u.target p = u.target q ↔ t.target p = t.target q
  others : ∀ p, (∀ q ∈ paths, t.target p ≠ t.target q) →
    u.target p = t.target p ∧ ∀ i ∈ inos, u.target p ≠ .file i
  nodup : paths.Pairwise (fun p q => t.target p ≠ t.target q) → inos.Nodup

theorem putsAll_nil (t : FileTree π φ) (d : φ) : PutsAll t t [] [] d where
  targets := .nil
  data _ := (if_neg List.not_mem_nil).symm
  keeps _ _ h := h
  places _ _ := Iff.rfl
  others _ _ := ⟨rfl, fun _ hi => absurd hi List.not_mem_nil⟩
  nodup _ := .nil

/-- The first path, and then the rest. -/
theorem Puts.cons {paths : List π} {inos : List ℕ} (h : Puts t u path ino d)
    (hrest : PutsAll u v paths inos d) : PutsAll t v (path :: paths) (ino :: inos) d := by
  -- elsewhere than `path`, the rest of the paths lead where they did, or to `ino`
  have hapart : ∀ p, t.target p ≠ t.target path → ∀ q, t.target p ≠ t.target q →
      u.target p ≠ u.target q := by
    intro p hp q hq
    obtain ⟨htarget, hne⟩ := h.others p hp
    by_cases hqpath : t.target q = t.target path
    · rw [h.same q hqpath]
      exact hne
    · rw [htarget, (h.others q hqpath).1]
      exact hq
  constructor
  · exact .cons (hrest.keeps _ _ h.target) hrest.targets
  · intro i
    rw [hrest.data, h.data]
    by_cases hi : i ∈ inos
    · rw [if_pos hi, if_pos (List.mem_cons_of_mem _ hi)]
    by_cases hino : i = ino
    · rw [if_neg hi, hino, Function.update_self, if_pos List.mem_cons_self]
    · rw [if_neg hi, Function.update_of_ne hino,
        if_neg (List.not_mem_cons_of_ne_of_not_mem hino hi)]
  · exact fun p i hp => hrest.keeps p i (h.keeps p i hp)
  · exact fun p q => (hrest.places p q).trans (h.places p q)
  · intro p hp
    have hpath := hp path List.mem_cons_self
    obtain ⟨htarget, hne⟩ := h.others p hpath
    obtain ⟨htarget', hne'⟩ := hrest.others p fun q hq =>
      hapart p hpath q (hp q (List.mem_cons_of_mem _ hq))
    refine ⟨htarget'.trans htarget, fun i hi => ?_⟩
    rcases List.mem_cons.mp hi with rfl | hi
    · rw [htarget']
      exact hne
    · exact hne' i hi
  · intro hpairs
    obtain ⟨hfirst, hpairs⟩ := List.pairwise_cons.mp hpairs
    refine List.nodup_cons.mpr ⟨fun hmem => ?_, hrest.nodup (hpairs.imp_of_mem fun hp hq hpq =>
      hapart _ (hfirst _ hp).symm _ hpq)⟩
    have hne := (hrest.others path fun q hq => by
      rw [h.target]
      exact (h.others q (hfirst q hq).symm).2.symm).2
    exact hne ino hmem (hrest.keeps _ _ h.target)

theorem PutsAll.read_of_ne {paths : List π} {inos : List ℕ} (h : PutsAll t u paths inos d) {p : π}
    (hp : ∀ q ∈ paths, t.target p ≠ t.target q) : u.read p = t.read p := by
  obtain ⟨htarget, hne⟩ := h.others p hp
  refine read_congr htarget fun i hi => ?_
  rw [h.data, if_neg fun hmem => hne i hmem (htarget.trans hi)]

/-! ## Changes that are confined to some paths -/

/-- A path leads to none of the places of `paths`. -/
def Outside (t : FileTree π φ) (paths : List π) (p : π) : Prop :=
  ∀ q ∈ paths, t.target p ≠ t.target q

/-- Files were created and changed at the places of `paths` only, and no name was lost. -/
structure Confined (t u : FileTree π φ) (paths : List π) : Prop where
  keeps : ∀ p i, t.target p = .file i → u.target p = .file i
  places : ∀ p q, u.target p = u.target q ↔ t.target p = t.target q
  ends : ∀ p, t.target p ≠ .loop → u.target p ≠ .loop
  outside : ∀ p, t.Outside paths p → u.target p = t.target p ∧ u.read p = t.read p

variable {paths paths' : List π} {inos : List ℕ}

theorem confined_refl (t : FileTree π φ) (paths : List π) : Confined t t paths where
  keeps _ _ h := h
  places _ _ := Iff.rfl
  ends _ h := h
  outside _ _ := ⟨rfl, rfl⟩

theorem Confined.mono (h : Confined t u paths) (hsub : paths ⊆ paths') : Confined t u paths' where
  keeps := h.keeps
  places := h.places
  ends := h.ends
  outside p hp := h.outside p fun q hq => hp q (hsub hq)

/-- Being outside of some paths does not change. -/
theorem Confined.outside_iff (h : Confined t u paths) (paths' : List π) (p : π) :
    u.Outside paths' p ↔ t.Outside paths' p :=
  forall₂_congr fun q _ => not_congr (h.places p q)

/-- **Changes compose.** -/
theorem Confined.trans (h : Confined t u paths) (h' : Confined u v paths') :
    Confined t v (paths ++ paths') where
  keeps p i hp := h'.keeps p i (h.keeps p i hp)
  places p q := (h'.places p q).trans (h.places p q)
  ends p hp := h'.ends p (h.ends p hp)
  outside p hp := by
    obtain ⟨htarget, hread⟩ := h.outside p fun q hq => hp q (List.mem_append_left _ hq)
    have hout : t.Outside paths' p := fun q hq => hp q (List.mem_append_right _ hq)
    obtain ⟨htarget', hread'⟩ := h'.outside p ((h.outside_iff paths' p).mpr hout)
    exact ⟨htarget'.trans htarget, hread'.trans hread⟩

theorem Puts.confined (h : Puts t u path ino d) : Confined t u [path] where
  keeps := h.keeps
  places := h.places
  ends p hp := by
    by_cases hpath : t.target p = t.target path
    · rw [h.same p hpath]
      simp
    · rw [(h.others p hpath).1]
      exact hp
  outside p hp :=
    have hne := hp path List.mem_cons_self
    ⟨(h.others p hne).1, h.read_of_ne hne⟩

/-- The files that were opened may be written to afterwards. -/
theorem PutsAll.confined (h : PutsAll t u paths inos d) (htarget : ∀ p, v.target p = u.target p)
    (hdata : ∀ i, i ∉ inos → v.data i = u.data i) : Confined t v paths where
  keeps p i hp := (htarget p).trans (h.keeps p i hp)
  places p q := by rw [htarget, htarget, h.places]
  ends p hp := by
    rw [htarget]
    by_cases hout : t.Outside paths p
    · rw [(h.others p hout).1]
      exact hp
    · simp only [Outside, not_forall, not_not] at hout
      obtain ⟨q, hq, hpq⟩ := hout
      obtain ⟨k, hk, rfl⟩ := List.mem_iff_getElem.mp hq
      have hget := h.targets.get hk (h.targets.length_eq ▸ hk)
      rw [(h.places p _).mpr hpq]
      simp only [List.get_eq_getElem] at hget
      rw [hget]
      simp
  outside p hp := by
    obtain ⟨hsame, hne⟩ := h.others p hp
    refine ⟨(htarget p).trans hsame, read_congr ((htarget p).trans hsame) fun i hi => ?_⟩
    have hmem : i ∉ inos := fun hmem => hne i hmem (hsame.trans hi)
    rw [hdata i hmem, h.data, if_neg hmem]

end FileTree
end Pyuring
