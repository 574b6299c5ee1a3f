import Mathlib
import LuaAssembly.Proofs.Storage.FileSystem

/-!
# Putting a file in its place

To install a file is to create its directory, if it is missing, and then to write the file.  If that
fails no file has changed; if it succeeds only the one file has, and it reads as it was written.
To install what is already there changes nothing.
-/
namespace LuaAssembly

namespace FileTask

open FileSystem

variable {α β : Type} {fs gs : FileSystem} {p c : Bytes}

/-! ## Running single operations -/

@[simp] theorem run_bind (t : FileTask α) (f : α → FileTask β) (fs : FileSystem) :
    (t >>= f).run fs = (f (t.run fs).1).run (t.run fs).2 :=
  run_andThen t f fs

@[simp] theorem run_pure (a : α) (fs : FileSystem) : (pure a : FileTask α).run fs = (a, fs) := rfl

@[simp] theorem run_readFile (p : Bytes) (fs : FileSystem) :
    (readFile p).run fs = (fs.read p, fs) := rfl

@[simp] theorem run_writeFile (p c : Bytes) (fs : FileSystem) :
    (writeFile p c).run fs = settle fs (fs.write p c) := rfl

@[simp] theorem run_makePath (p : Bytes) (fs : FileSystem) :
    (makePath p).run fs = settle fs (fs.makeDirectories p) := rfl

@[simp] theorem run_pathExists (p : Bytes) (fs : FileSystem) :
    (pathExists p).run fs = (fs.exists? p, fs) := rfl

/-! ## Installing -/

/-- Writes a file, and creates its directory if it is missing. -/
def install (path contents : Bytes) : FileTask (Except FileProblem Unit) := do
  match ← makePath (Path.directory path) with
  | .error problem => return .error problem
  | .ok () => writeFile path contents

theorem run_install (p c : Bytes) (fs : FileSystem) : (install p c).run fs =
    match fs.makeDirectories (Path.directory p) with
    | .error problem => (.error problem, fs)
    | .ok gs => settle gs (gs.write p c) := by
  rw [install, run_bind, run_makePath]
  cases fs.makeDirectories (Path.directory p) with
  | error problem => rfl
  | ok gs => rfl

/-- The directory of a file is made without a change to any file, and then it is there. -/
theorem makeDirectories_directory (hp : Path.IsFull p)
    (h : fs.makeDirectories (Path.directory p) = .ok gs) :
    Changes ∅ fs gs ∧ gs.Reaches (Path.segments p) := by
  have hnames : ∀ s ∈ (Path.segments p).dropLast, Path.IsName s :=
    fun s hs => hp.isName s (List.mem_of_mem_dropLast hs)
  obtain ⟨text, htext⟩ := makeDirectories_ofNames hnames fs
  rw [hp.directory_eq, htext] at h
  obtain ⟨hchanges, hfronts⟩ := makeAlong_spec hnames (entryAt?_nil fs) h
  refine ⟨hchanges, ?_⟩
  by_cases hne : Path.segments p = []
  · intro front hfront hfrontne
    rw [hne] at hfront hfrontne
    exact absurd (List.prefix_nil.1 hfront) hfrontne
  · exact (reaches_iff_dropLast hne).2 hfronts

theorem write_eq_ok (hp : Path.IsFull p) (h : fs.write p c = .ok gs) :
    Changes {Path.segments p} fs gs ∧ gs.Holds p c := by
  rw [FileSystem.write] at h
  split at h
  · next htarget =>
    obtain ⟨rfl, hreach, hentry⟩ := (target_eq_ok_iff hp).1 htarget
    cases h
    refine ⟨changes_put hentry c, entryAt?_put_self fs ?_ _⟩
    intro hne
    rw [hne] at hentry
    exact hentry (entryAt?_nil fs)
  · cases h

/-- Where a file cannot be installed, no file has changed. -/
theorem changes_of_install_eq_error (hp : Path.IsFull p) {problem : FileProblem}
    (h : (install p c).run fs = (.error problem, gs)) : Changes ∅ fs gs := by
  rw [run_install] at h
  split at h
  · cases h
    exact Changes.refl fs
  · next gs' hmade =>
    have hchanges := (makeDirectories_directory hp hmade).1
    cases hwrite : gs'.write p c with
    | error problem =>
      rw [hwrite] at h
      cases h
      exact hchanges
    | ok hs =>
      rw [hwrite] at h
      cases h

/-- An installed file is the only one that has changed, and it reads as it was written. -/
theorem changes_of_install_eq_ok (hp : Path.IsFull p) (h : (install p c).run fs = (.ok (), gs)) :
    Changes {Path.segments p} fs gs ∧ gs.read p = .ok c := by
  rw [run_install] at h
  split at h
  · cases h
  · next gs' hmade =>
    obtain ⟨hmadechanges, hreach⟩ := makeDirectories_directory hp hmade
    cases hwrite : gs'.write p c with
    | error problem =>
      rw [hwrite] at h
      cases h
    | ok hs =>
      rw [hwrite] at h
      cases h
      obtain ⟨hchanges, hholds⟩ := write_eq_ok hp hwrite
      refine ⟨(hmadechanges.mono (Set.empty_subset _)).trans hchanges, ?_⟩
      exact (read_eq_ok_iff hp).2 ⟨hchanges.reaches hreach, hholds⟩

/-- To install what is already there changes nothing. -/
theorem install_of_read_eq_ok (hp : Path.IsFull p) (h : fs.read p = .ok c) :
    ∃ gs, (install p c).run fs = (.ok (), gs) ∧ fs.Same gs := by
  obtain ⟨hreach, hholds⟩ := (read_eq_ok_iff hp).1 h
  have hne : Path.segments p ≠ [] := by
    intro hnil
    rw [Holds, hnil] at hholds
    cases hholds
  have hnames : ∀ s ∈ (Path.segments p).dropLast, Path.IsName s :=
    fun s hs => hp.isName s (List.mem_of_mem_dropLast hs)
  have hmade : fs.makeDirectories (Path.directory p) = .ok fs := by
    obtain ⟨text, htext⟩ := makeDirectories_ofNames hnames fs
    rw [hp.directory_eq, htext]
    exact makeAlong_eq_self hnames ((reaches_iff_dropLast hne).1 hreach)
  have htarget : fs.target p = .ok (Path.segments p) := by
    refine (target_eq_ok_iff hp).2 ⟨rfl, hreach, ?_⟩
    rw [hholds]
    simp
  refine ⟨fs.put (Path.segments p) (.file c), ?_, fun q => ?_, rfl⟩
  · rw [run_install, hmade]
    simp only [FileSystem.write, htarget]
    rfl
  · rcases eq_or_ne q (Path.segments p) with rfl | hq
    · rw [entryAt?_put_self fs hne]
      exact hholds
    · rw [entryAt?_put_of_ne fs hq]

end FileTask

end LuaAssembly
