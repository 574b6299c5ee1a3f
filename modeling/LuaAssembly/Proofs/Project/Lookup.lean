import Mathlib
import LuaAssembly.Proofs.Project.Units

/-!
# Looking for a manifest

The manifest of a project is looked for in a directory, then in the directory above it and so on.
Nothing counts the rounds of this search: it goes on until it finds something with the name of
manifests or until a directory has no other one above it.  `Search.step` is one round.  The search
ends because the directory of a full path has one name less, until none is left at the root.

The main statement is that the search ends, and how: what it finds is what loading gives in the
nearest directory that has something to load, and it finds nothing exactly when there is no such
directory.
-/
namespace LuaAssembly

open FileSystem FileTask

namespace Manifest

/-! ## Rounds of a search -/

/-- What a search ends with. -/
abbrev Found := Except ManifestProblem (Option Manifest)

/-- A search for a manifest. -/
inductive Search where
  | looking (dir : Bytes)
  | ended (found : Found)

/-- What loading gives in a directory. -/
def loaded (fs : FileSystem) (dir : Bytes) : Found :=
  ((load dir).run fs).1.map some

/-- One round of a search.  If there is something to load it is loaded, and otherwise the search
goes on in the directory above, if there is one. -/
def Search.step (fs : FileSystem) : Search → Search
  | .looking dir =>
    if fs.exists? (Path.join dir fileName) then .ended (loaded fs dir)
    else if Path.directory dir = dir then .ended (.ok none)
    else .looking (Path.directory dir)
  | .ended found => .ended found

/-! ## Nearest directories -/

/-- Something with the name of manifests stands in the directory with the given names. -/
def HasManifest (fs : FileSystem) (names : Location) : Prop :=
  fs.Reaches (names ++ [fileName]) ∧ ∃ entry, fs.entryAt? (names ++ [fileName]) = some entry

/-- Of a directory and those above it, the nearest one that has something to load. -/
structure IsNearest (fs : FileSystem) (names front : Location) : Prop where
  above : front <+: names
  hasManifest : HasManifest fs front
  /-- Every other such directory is above it. -/
  nearest : ∀ front', front' <+: names → HasManifest fs front' → front' <+: front

/-- How the search from a directory should end. -/
def Answers (fs : FileSystem) (names : Location) (found : Found) : Prop :=
  (∃ front, IsNearest fs names front ∧ found = loaded fs (Path.ofNames front)) ∨
    (∀ front, front <+: names → ¬ HasManifest fs front) ∧ found = .ok none

variable {fs : FileSystem} {names : Location} {found : Found}

theorem answers_self (h : HasManifest fs names) :
    Answers fs names (loaded fs (Path.ofNames names)) :=
  .inl ⟨names, ⟨List.prefix_rfl, h, fun _ hfront _ => hfront⟩, rfl⟩

theorem answers_root (h : ¬ HasManifest fs []) : Answers fs [] (.ok none) := by
  refine .inr ⟨fun front hfront => ?_, rfl⟩
  rwa [List.prefix_nil.1 hfront]

/-- Where there is nothing to load, the answer is that of the directory above. -/
theorem Answers.concat {s : Bytes} (h : Answers fs names found)
    (hnone : ¬ HasManifest fs (names ++ [s])) : Answers fs (names ++ [s]) found := by
  -- A directory that has something to load is not the last one, so it was there before.
  have hbefore : ∀ front, front <+: names ++ [s] → HasManifest fs front → front <+: names := by
    intro front hfront hhas
    rcases List.prefix_concat_iff.1 hfront with rfl | hfront
    · exact absurd hhas hnone
    · exact hfront
  rcases h with ⟨front, hnearest, hfound⟩ | ⟨hall, hfound⟩
  · refine .inl ⟨front, ⟨?_, hnearest.hasManifest, ?_⟩, hfound⟩
    · exact hnearest.above.trans (List.prefix_append _ _)
    · intro front' hfront' hhas
      exact hnearest.nearest front' (hbefore front' hfront' hhas) hhas
  · refine .inr ⟨?_, hfound⟩
    intro front hfront hhas
    exact hall front (hbefore front hfront hhas) hhas

theorem loaded_ne_none (fs : FileSystem) (dir : Bytes) : loaded fs dir ≠ .ok none := by
  rw [loaded]
  cases ((load dir).run fs).1 <;> simp [Except.map]

theorem Answers.eq_none_iff (h : Answers fs names found) :
    found = .ok none ↔ ∀ front, front <+: names → ¬ HasManifest fs front := by
  rcases h with ⟨front, hnearest, rfl⟩ | ⟨hall, rfl⟩
  · constructor
    · intro hnone
      exact absurd hnone (loaded_ne_none fs _)
    · intro hall
      exact absurd hnearest.hasManifest (hall front hnearest.above)
  · exact ⟨fun _ => hall, fun _ => rfl⟩

/-! ## Single rounds -/

theorem isName_fileName : Path.IsName fileName :=
  ⟨by decide, by decide, by decide, by decide⟩

theorem exists?_join_iff (h : ∀ s ∈ names, Path.IsName s) :
    fs.exists? (Path.join (Path.ofNames names) fileName) = true ↔ HasManifest fs names := by
  have hall : ∀ s ∈ names ++ [fileName], Path.IsName s := by
    rw [List.forall_mem_append, List.forall_mem_singleton]
    exact ⟨h, isName_fileName⟩
  rw [Path.join_ofNames h isName_fileName, exists?_iff (Path.isFull_ofNames hall),
    Path.segments_ofNames hall]
  rfl

theorem Search.step_of_hasManifest (h : ∀ s ∈ names, Path.IsName s) (hhas : HasManifest fs names) :
    step fs (.looking (Path.ofNames names)) = .ended (loaded fs (Path.ofNames names)) := by
  rw [step, if_pos ((exists?_join_iff h).2 hhas)]

theorem Search.step_root (hnone : ¬ HasManifest fs []) :
    step fs (.looking (Path.ofNames [])) = .ended (.ok none) := by
  have hnames : ∀ s ∈ ([] : Location), Path.IsName s := by simp
  rw [step, if_neg (mt (exists?_join_iff hnames).1 hnone),
    if_pos ((Path.directory_ofNames_eq_self_iff hnames).2 rfl)]

theorem Search.step_concat {s : Bytes} (h : ∀ t ∈ names ++ [s], Path.IsName t)
    (hnone : ¬ HasManifest fs (names ++ [s])) :
    step fs (.looking (Path.ofNames (names ++ [s]))) = .looking (Path.ofNames names) := by
  have hup : Path.directory (Path.ofNames (names ++ [s])) ≠ Path.ofNames (names ++ [s]) := by
    rw [Ne, Path.directory_ofNames_eq_self_iff h]
    simp
  rw [step, if_neg (mt (exists?_join_iff h).1 hnone), if_neg hup, Path.directory_ofNames h,
    List.dropLast_concat]

/-- From every directory the search ends, after one round for each directory at most. -/
theorem Search.exists_ended (fs : FileSystem) (h : ∀ s ∈ names, Path.IsName s) :
    ∃ found, (∃ rounds ≤ names.length + 1,
      (step fs)^[rounds] (.looking (Path.ofNames names)) = .ended found) ∧
        Answers fs names found := by
  induction names using List.reverseRecOn with
  | nil =>
    by_cases hhas : HasManifest fs []
    · exact ⟨_, ⟨1, le_rfl, step_of_hasManifest h hhas⟩, answers_self hhas⟩
    · exact ⟨_, ⟨1, le_rfl, step_root hhas⟩, answers_root hhas⟩
  | append_singleton names s ih =>
    by_cases hhas : HasManifest fs (names ++ [s])
    · exact ⟨_, ⟨1, by omega, step_of_hasManifest h hhas⟩, answers_self hhas⟩
    · have hstep := step_concat h hhas
      rw [List.forall_mem_append] at h
      obtain ⟨found, ⟨rounds, hrounds, hended⟩, hanswers⟩ := ih h.1
      refine ⟨found, ⟨rounds + 1, ?_, ?_⟩, hanswers.concat hhas⟩
      · rw [List.length_append, List.length_singleton]
        omega
      · rw [Function.iterate_succ_apply, hstep, hended]

/-! ## The whole search -/

theorem Search.iterate_ended (fs : FileSystem) (found : Found) (rounds : Nat) :
    (step fs)^[rounds] (.ended found) = .ended found :=
  Function.iterate_fixed rfl rounds

/-- A search that has ended stays where it is. -/
theorem Search.iterate_of_le {search : Search} {rounds more : Nat} (hle : rounds ≤ more)
    (h : (step fs)^[rounds] search = .ended found) : (step fs)^[more] search = .ended found := by
  rw [← Nat.sub_add_cancel hle, Function.iterate_add_apply, h, iterate_ended]

theorem run_load_snd (dir : Bytes) (fs : FileSystem) : ((load dir).run fs).2 = fs := by
  rw [load, run_bind, run_readFile]
  cases fs.read (Path.join dir fileName) with
  | error problem => rfl
  | ok contents => simp only [run_bind, run_absolute, run_pure]

theorem run_loadFirst_cons (dir : Bytes) (rest : List Bytes) (fs : FileSystem) :
    (loadFirst (dir :: rest)).run fs =
      if fs.exists? (Path.join dir fileName) then (loaded fs dir, fs)
      else (loadFirst rest).run fs := by
  rw [loadFirst, run_bind, run_pathExists]
  split_ifs
  · simp only [run_bind, run_pure, run_load_snd, loaded]
  · rfl

/-- The directories above a path are gone through as in a search, provided that the search ends
before the list of directories does. -/
theorem run_loadFirst_climb {n : Nat} {dir : Bytes}
    (h : (Search.step fs)^[n + 1] (.looking dir) = .ended found) :
    (loadFirst (Path.ancestors.climb n dir)).run fs = (found, fs) := by
  induction n generalizing dir with
  | zero =>
    rw [Function.iterate_one, Search.step] at h
    rw [Path.ancestors.climb, run_loadFirst_cons]
    split_ifs at h ⊢
    · cases h
      rfl
    · cases h
      rfl
  | succ n ih =>
    rw [Function.iterate_succ_apply, Search.step] at h
    rw [Path.ancestors.climb]
    by_cases hexists : fs.exists? (Path.join dir fileName) = true
    · rw [if_pos hexists, Search.iterate_ended] at h
      cases h
      split_ifs <;> rw [run_loadFirst_cons, if_pos hexists]
    · rw [if_neg hexists] at h
      split_ifs at h ⊢
      · rw [Search.iterate_ended] at h
        cases h
        rw [run_loadFirst_cons, if_neg hexists]
        rfl
      · rw [run_loadFirst_cons, if_neg hexists, ih h]

/-- The search for a manifest.  From every directory, on every file system, it ends after at most
one round for the directory and each one above it, and the file system stays as it is.  What it
finds is what loading gives, be it a manifest or a problem, in the nearest of these directories that
has something with the name of manifests, and it finds nothing exactly when none of them has. -/
theorem find_nearest (fs : FileSystem) (start : Bytes) :
    ∃ found, (find start).run fs = (found, fs) ∧
      (∃ rounds ≤ (projectTarget fs start).length + 1,
        (Search.step fs)^[rounds] (.looking (Path.resolve fs.workingPath start)) =
          .ended found) ∧
      Answers fs (projectTarget fs start) found ∧
      (found = .ok none ↔ ∀ front, front <+: projectTarget fs start → ¬ HasManifest fs front) := by
  have hworking : Path.isAbsolute fs.workingPath = true := Path.isAbsolute_ofNames fs.working
  have hdir : Path.resolve fs.workingPath start = Path.ofNames (projectTarget fs start) :=
    Path.resolve_eq_ofNames hworking start
  have hnames : ∀ s ∈ projectTarget fs start, Path.IsName s := by
    rw [projectTarget, ← Path.segments_resolve hworking]
    exact (Path.isFull_resolve hworking start).isName
  obtain ⟨found, ⟨rounds, hrounds, hended⟩, hanswers⟩ := Search.exists_ended fs hnames
  refine ⟨found, ?_, ⟨rounds, hrounds, by rw [hdir, hended]⟩, hanswers, hanswers.eq_none_iff⟩
  -- A path has at least as many bytes as names, so the list of directories reaches the root.
  have hlength := Path.length_le_ofNames (projectTarget fs start)
  have hle : rounds ≤ (Path.ofNames (projectTarget fs start)).length + 1 := by omega
  rw [find, run_bind, run_absolute, hdir]
  exact run_loadFirst_climb (Search.iterate_of_le hle hended)

-- A directory with the name of manifests cannot be read, and it is not passed over.
example : ((find (utf8 "x/y")).run
      ⟨[([utf8 "p"], .directory), ([utf8 "p", fileName], .directory), ([fileName], .file [])],
        [utf8 "p"]⟩).1 =
    .error (.unreadable (utf8 "/p/luasm.toml")
      ⟨.reading, utf8 "/p/luasm.toml", .isDirectory⟩) := by decide +kernel

end Manifest

end LuaAssembly
