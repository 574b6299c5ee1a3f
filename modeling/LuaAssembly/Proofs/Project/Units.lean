import Mathlib
import LuaAssembly.Proofs.Project.Idle

/-!
# Loaded units write different files

A manifest names outputs in many ways: relative to the build directory or not, with points and
slashes to spare, or not at all.  What counts is where the names lead.  The main statement is that a
manifest is loaded exactly when every unit has a source and no two outputs lead to the same place,
and that the units then have full paths to these places.
-/
namespace LuaAssembly

open FileSystem FileTask

namespace Manifest

variable {m m₀ : Manifest} {path dir contents : Bytes} {fs : FileSystem}

/-! ## Where units lead -/

/-- Where the project directory is. -/
def projectTarget (fs : FileSystem) (dir : Bytes) : List Bytes :=
  Path.target (Path.segments fs.workingPath) dir

/-- The build directory, which has a default. -/
def buildDir (m : Manifest) : Bytes :=
  if m.outDir = [] then utf8 "build" else m.outDir

/-- Where the output of a unit leads, for a project directory with the given names. -/
def outputTarget (m : Manifest) (project : List Bytes) (e : UnitEntry) : List Bytes :=
  Path.target (Path.target project m.buildDir) (withOutput e).output

/-- The unit with the paths to where its source and its output lead. -/
def placedUnit (m : Manifest) (project : List Bytes) (e : UnitEntry) : BuildUnit :=
  ⟨Path.ofNames (Path.target project e.source), Path.ofNames (m.outputTarget project e)⟩

/-- The manifest with all defaults filled in. -/
def filled (m : Manifest) (dir : Bytes) : Manifest :=
  { m with outDir := m.buildDir, entries := m.entries.map withOutput, dir := dir }

theorem source_withOutput (e : UnitEntry) : (withOutput e).source = e.source := by
  rw [withOutput]
  split_ifs <;> rfl

theorem units_filled (hdir : Path.isAbsolute dir = true) :
    (m.filled dir).units = m.entries.map (m.placedUnit (Path.segments dir)) := by
  have hout : (m.filled dir).outPath = Path.resolve dir m.buildDir := rfl
  have habs := (Path.isFull_resolve hdir m.buildDir).absolute
  rw [units, hout, filled, List.map_map]
  refine List.map_congr_left fun e _ => ?_
  rw [Function.comp_apply, source_withOutput, Path.resolve_eq_ofNames hdir,
    Path.resolve_eq_ofNames habs, Path.segments_resolve hdir]
  rfl

/-- Outputs have different paths when they lead to different places. -/
theorem nodup_outputs_filled_iff (hdir : Path.isAbsolute dir = true) :
    ((m.filled dir).units.map BuildUnit.output).Nodup ↔
      (m.entries.map (m.outputTarget (Path.segments dir))).Nodup := by
  have habs := (Path.isFull_resolve hdir m.buildDir).absolute
  have hsegments : ∀ e, Path.segments (Path.ofNames (m.outputTarget (Path.segments dir) e)) =
      m.outputTarget (Path.segments dir) e := by
    intro e
    rw [outputTarget, ← Path.segments_resolve hdir, ← Path.resolve_eq_ofNames habs,
      Path.segments_resolve habs]
  rw [units_filled hdir, List.map_map]
  constructor
  · intro h
    refine List.Nodup.of_map Path.ofNames ?_
    rwa [List.map_map]
  · intro h
    refine List.Nodup.of_map Path.segments ?_
    rw [List.map_map]
    exact (List.map_congr_left fun e _ => hsegments e) ▸ h

/-! ## Loading -/

theorem firstWithoutSource?_eq_none_iff {entries : List UnitEntry} :
    firstWithoutSource? entries = none ↔ ∀ e ∈ entries, e.source ≠ [] := by
  simp [firstWithoutSource?]

theorem ofFile_eq_ok_iff (hparse : Toml.Setting.load? settings empty contents = some m₀) :
    ofFile path dir contents = .ok m ↔ (∀ e ∈ m₀.entries, e.source ≠ []) ∧
      ((m₀.filled dir).units.map BuildUnit.output).Nodup ∧ m = m₀.filled dir := by
  have hnodup : firstCollision? [] (m₀.filled dir).units = none ↔
      ((m₀.filled dir).units.map BuildUnit.output).Nodup := by
    rw [firstCollision?_eq_none_iff]
    simp
  rw [← firstWithoutSource?_eq_none_iff, ← hnodup]
  cases hsource : firstWithoutSource? m₀.entries with
  | some number => simp [ofFile, hparse, hsource]
  | none =>
    cases hcollision : firstCollision? [] (m₀.filled dir).units with
    | some both =>
      rw [filled, buildDir] at hcollision
      simp [ofFile, hparse, hsource, hcollision]
    | none =>
      rw [filled, buildDir] at hcollision ⊢
      simp [ofFile, hparse, hsource, hcollision, eq_comm]

theorem run_absolute (dir : Bytes) (fs : FileSystem) :
    (FileTask.absolute dir).run fs = (Path.resolve fs.workingPath dir, fs) := by
  rw [FileTask.absolute, Path.resolve]
  split_ifs <;> rfl

theorem run_load (hread : fs.read (Path.join dir fileName) = .ok contents) :
    (load dir).run fs =
      (ofFile (Path.join dir fileName) (Path.resolve fs.workingPath dir) contents, fs) := by
  rw [load, run_bind, run_readFile]
  simp only [hread, run_bind, run_absolute, run_pure]

/-- When a manifest is loaded.  The file of the directory is read as the manifest `m₀`.  It is loaded
exactly when every unit has a source and all outputs, given or by default, lead to different places.
Then the units are those of the file, in order, with full paths to where they lead, and no two
outputs have the same path. -/
theorem load_eq_ok_iff_targets
    (hread : fs.read (Path.join dir fileName) = .ok contents)
    (hparse : Toml.Setting.load? settings empty contents = some m₀) :
    ((∃ m, (load dir).run fs = (.ok m, fs)) ↔ (∀ e ∈ m₀.entries, e.source ≠ []) ∧
        (m₀.entries.map (m₀.outputTarget (projectTarget fs dir))).Nodup) ∧
      ∀ m gs, (load dir).run fs = (.ok m, gs) → gs = fs ∧
        m.units = m₀.entries.map (m₀.placedUnit (projectTarget fs dir)) ∧
        (∀ u ∈ m.units, u.IsFull) ∧ (m.units.map BuildUnit.output).Nodup := by
  have hworking : Path.isAbsolute fs.workingPath = true := Path.isAbsolute_ofNames fs.working
  have hdir := (Path.isFull_resolve hworking dir).absolute
  have hsegments : Path.segments (Path.resolve fs.workingPath dir) = projectTarget fs dir :=
    Path.segments_resolve hworking dir
  have hiff : ∀ m, ofFile (Path.join dir fileName) (Path.resolve fs.workingPath dir) contents =
      .ok m ↔ _ := fun m => ofFile_eq_ok_iff hparse
  rw [run_load hread]
  simp only [Prod.mk.injEq, and_true, hiff]
  rw [← hsegments, ← nodup_outputs_filled_iff hdir]
  refine ⟨⟨?_, ?_⟩, ?_⟩
  · rintro ⟨m, hsources, hnodup, -⟩
    exact ⟨hsources, hnodup⟩
  · rintro ⟨hsources, hnodup⟩
    exact ⟨_, hsources, hnodup, rfl⟩
  · rintro _ _ ⟨⟨-, hnodup, rfl⟩, rfl⟩
    exact ⟨rfl, units_filled hdir, isFull_of_mem_units hdir, hnodup⟩

end Manifest

/-- A manifest with two units, the second with the given output. -/
def spelledContents (output : Bytes) : Bytes :=
  [ utf8 "[[unit]]\n", utf8 "source = \"a/m.lasm\"\n", utf8 "[[unit]]\n",
    utf8 "source = \"b/m.lua.lasm\"\n", utf8 "output = \"", output, utf8 "\"\n" ].flatten

/-- Two projects.  In the first, both outputs lead to one place, and in the second they do not. -/
def spelledFiles : FileSystem where
  entries :=
    [ ([utf8 "p"], .directory), ([utf8 "q"], .directory),
      ([utf8 "p", Manifest.fileName], .file (spelledContents (utf8 "./x/../../build//m.luac"))),
      ([utf8 "q", Manifest.fileName], .file (spelledContents (utf8 "/q/build/../m.luac"))) ]
  working := [utf8 "p"]

/-- What is read of both files. -/
def spelledManifest (output : Bytes) : Manifest :=
  { Manifest.empty with entries := [⟨utf8 "a/m.lasm", []⟩, ⟨utf8 "b/m.lua.lasm", output⟩] }

theorem load_eq_ok_iff_targets_spelledFiles :
    (¬∃ m, (Manifest.load (utf8 ".")).run spelledFiles = (.ok m, spelledFiles)) ∧
      ∃ m, (Manifest.load (utf8 "../q")).run spelledFiles = (.ok m, spelledFiles) ∧
        m.units = [⟨utf8 "/q/a/m.lasm", utf8 "/q/build/m.luac"⟩,
          ⟨utf8 "/q/b/m.lua.lasm", utf8 "/q/m.luac"⟩] := by
  have hread : spelledFiles.read (Path.join (utf8 ".") Manifest.fileName) =
      .ok (spelledContents (utf8 "./x/../../build//m.luac")) := by decide +kernel
  have hparse : Toml.Setting.load? Manifest.settings .empty
      (spelledContents (utf8 "./x/../../build//m.luac")) =
        some (spelledManifest (utf8 "./x/../../build//m.luac")) := by decide +kernel
  have hread' : spelledFiles.read (Path.join (utf8 "../q") Manifest.fileName) =
      .ok (spelledContents (utf8 "/q/build/../m.luac")) := by decide +kernel
  have hparse' : Toml.Setting.load? Manifest.settings .empty
      (spelledContents (utf8 "/q/build/../m.luac")) =
        some (spelledManifest (utf8 "/q/build/../m.luac")) := by decide +kernel
  obtain ⟨hiff, -⟩ := Manifest.load_eq_ok_iff_targets hread hparse
  obtain ⟨hiff', hunits⟩ := Manifest.load_eq_ok_iff_targets hread' hparse'
  obtain ⟨m, hm⟩ := hiff'.2 (by decide +kernel)
  refine ⟨fun hload => absurd (hiff.1 hload).2 (by decide +kernel), m, hm, ?_⟩
  rw [(hunits m _ hm).2.1]
  decide +kernel

end LuaAssembly
