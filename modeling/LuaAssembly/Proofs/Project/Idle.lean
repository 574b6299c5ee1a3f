import Mathlib
import LuaAssembly.Proofs.Project.LockText
import LuaAssembly.Proofs.Project.Run

/-!
# Building again

When a project has been built and is built again at once, there should be nothing to do.  A record
is found by its source alone, so two units with one source have one record between them, and the
unit that it is not about is built every time.  The main statement says exactly when the second
build is idle: the sources are different, the lock file can be read back, and the records are still
true, which they are when no output is a source or the lock file.
-/
namespace LuaAssembly

open FileSystem FileTask

/-! ## Loaded manifests -/

namespace Manifest

theorem isAbsolute_absolute (path : Bytes) (fs : FileSystem) :
    Path.isAbsolute ((FileTask.absolute path).run fs).1 = true := by
  rw [FileTask.absolute]
  split_ifs with h
  · exact (Path.isFull_clean h).absolute
  · have hworking : Path.isAbsolute fs.workingPath = true := by
      simp [FileSystem.workingPath, Path.isAbsolute]
    exact (Path.isFull_join hworking path).absolute

/-- There is no collision exactly when no output stands twice, here or earlier. -/
theorem firstCollision?_eq_none_iff {earlier us : List BuildUnit} :
    firstCollision? earlier us = none ↔ (us.map BuildUnit.output).Nodup ∧
      ∀ e ∈ earlier, ∀ u ∈ us, e.output ≠ u.output := by
  induction us generalizing earlier with
  | nil => simp [firstCollision?]
  | cons u us ih =>
    rw [firstCollision?, List.map_cons, List.nodup_cons, List.mem_map]
    cases hfind : earlier.find? fun e => e.output = u.output with
    | some e =>
      have hsame : e.output = u.output := by simpa using List.find?_some hfind
      refine iff_of_false (by simp) fun h => ?_
      exact h.2 e (List.mem_of_find?_eq_some hfind) u List.mem_cons_self hsame
    | none =>
      rw [List.find?_eq_none] at hfind
      simp only [ih, List.forall_mem_append, List.forall_mem_singleton]
      constructor
      · rintro ⟨hnodup, hearlier, hu⟩
        refine ⟨⟨?_, hnodup⟩, fun e he => List.forall_mem_cons.2 ⟨?_, hearlier e he⟩⟩
        · rintro ⟨v, hv, heq⟩
          exact hu v hv heq.symm
        · simpa using hfind e he
      · rintro ⟨⟨hu, hnodup⟩, hearlier⟩
        refine ⟨hnodup, fun e he v hv => hearlier e he v (List.mem_cons_of_mem _ hv), ?_⟩
        exact fun v hv heq => hu ⟨v, hv, heq.symm⟩

/-- A loaded manifest has a project directory that starts at the root, and its units write
different files. -/
theorem of_load_eq_ok {dir : Bytes} {fs : FileSystem} {m : Manifest}
    (h : ((load dir).run fs).1 = .ok m) :
    Path.isAbsolute m.dir = true ∧ (m.units.map BuildUnit.output).Nodup := by
  rw [load, run_bind, run_readFile] at h
  cases hread : fs.read (Path.join dir fileName) with
  | error problem =>
    rw [hread] at h
    cases h
  | ok contents =>
    rw [hread] at h
    simp only [run_bind, run_pure, ofFile] at h
    have habsolute := isAbsolute_absolute dir fs
    split at h
    · cases h
    · split at h
      · cases h
      · split at h
        · cases h
        · next hcollision =>
          cases h
          exact ⟨habsolute, (firstCollision?_eq_none_iff.1 hcollision).1⟩

end Manifest

namespace Build

variable {force : Bool} {m : Manifest} {fs gs : FileSystem} {lock : Lock} {us : List BuildUnit}
  {r : LockedUnit}

/-! ## Records that can be read back -/

theorem isValid_digest (contents : Bytes) : Utf8.isValid (digest contents) = true := by
  have hascii : ∀ b ∈ digest contents, Utf8.IsAscii b := by
    have hdigit : ∀ v < 16, Utf8.IsAscii (Numeral.digit v) := by decide +kernel
    intro b hb
    rw [digest, Digest.hexText, List.mem_flatMap] at hb
    obtain ⟨c, -, hb⟩ := hb
    obtain ⟨v, hv, rfl⟩ := Numeral.exists_digit_of_mem_fixed (by decide) hb
    exact hdigit v hv
  simpa [Utf8.isValid_nil] using Utf8.isValid_append_of_isAscii hascii []

/-- The record holds digests of files. -/
def HasDigests (r : LockedUnit) : Prop :=
  (∃ src, r.sourceDigest = digest src) ∧ ∃ out, r.outputDigest = digest out

theorem validRecord_iff (h : HasDigests r) : Lock.ValidRecord r ↔
    Utf8.isValid r.source = true ∧ Utf8.isValid r.output = true := by
  obtain ⟨⟨src, hsrc⟩, out, hout⟩ := h
  simp [Lock.ValidRecord, hsrc, hout, isValid_digest]

theorem Current.hasDigests {u : BuildUnit} (h : Current fs u r) : HasDigests r := by
  obtain ⟨src, out, -, hsrc, -, -, hout⟩ := h
  exact ⟨⟨src, hsrc⟩, out, hout⟩

theorem UnitsRun.hasDigests {lock : Option Lock} {progress : Progress}
    (h : UnitsRun force lock us fs (progress, gs)) : ∀ r ∈ progress.records, HasDigests r := by
  induction h using UnitsRun.pair_induction with
  | done fs =>
    simp
  | stopped hunit =>
    simp
  | next hunit hlater ih =>
    rw [List.forall_mem_cons]
    refine ⟨?_, ih⟩
    cases hunit with
    | skipped hforce hrecord hcurrent => exact hcurrent.hasDigests
    | rebuilt hread hassembled hinstall => exact ⟨⟨_, rfl⟩, _, rfl⟩

/-! ## Idle builds -/

/-- A build has nothing to do: every unit is skipped, and no file changes. -/
def Idle (m : Manifest) (fs : FileSystem) : Prop :=
  ((m.build false).run fs).1 = .ok ⟨m.units.map (⟨·, true, 0⟩), none⟩ ∧
    fs.Same ((m.build false).run fs).2

/-- Where every unit is skipped, the records that are found are true. -/
theorem UnitsRun.current_of_skipped {lock : Option Lock} {progress : Progress}
    (h : UnitsRun force lock us fs (progress, gs))
    (hskipped : progress.results = us.map (⟨·, true, 0⟩)) :
    ∀ u ∈ us, ∃ r, lock.bind (·.find? u.source) = some r ∧ Current fs u r := by
  induction h using UnitsRun.pair_induction with
  | done fs =>
    simp
  | stopped hunit =>
    cases hskipped
  | next hunit hlater ih =>
    obtain ⟨hfirst, hrest⟩ := List.cons.inj hskipped
    rw [List.forall_mem_cons]
    cases hunit with
    | skipped hforce hrecord hcurrent => exact ⟨⟨_, hrecord, hcurrent⟩, ih hrest⟩
    | rebuilt hread hassembled hinstall => cases hfirst

/-- Units whose records are found and true are skipped. -/
theorem run_buildUnits_of_current {lock : Option Lock} {rs : List LockedUnit}
    (h : ∀ r ∈ rs, lock.bind (·.find? r.source) = some r ∧ Current fs r.unit r) :
    (buildUnits false lock (rs.map LockedUnit.unit)).run fs =
      (⟨(rs.map LockedUnit.unit).map (⟨·, true, 0⟩), rs, none⟩, fs) := by
  induction rs with
  | nil => rfl
  | cons r rs ih =>
    rw [List.forall_mem_cons] at h
    have hunit : (buildUnit false r.unit (lock.bind (·.find? r.unit.source))).run fs =
        (.ok (⟨r.unit, true, 0⟩, r), fs) := by
      rw [show r.unit.source = r.source from rfl, h.1.1]
      exact run_buildUnit_of_current h.1.2
    rw [List.map_cons, run_buildUnits_cons, hunit]
    simp only [ih h.2]
    rfl

theorem find?_of_nodup {rs : List LockedUnit} (hnodup : (rs.map LockedUnit.source).Nodup)
    (hr : r ∈ rs) : Lock.find? ⟨rs⟩ r.source = some r := by
  rw [Lock.find?]
  induction rs with
  | nil => cases hr
  | cons r' rs ih =>
    rw [List.map_cons, List.nodup_cons] at hnodup
    rcases List.mem_cons.1 hr with rfl | hr
    · rw [List.find?_cons_of_pos (by simp)]
    · have hne : r'.source ≠ r.source := by
        intro heq
        exact hnodup.1 (List.mem_map.2 ⟨r, hr, heq.symm⟩)
      rw [List.find?_cons_of_neg (by simpa using hne)]
      exact ih hnodup.2 hr

/-- A build that is idle finds a true record of every unit in the lock file, by its source. -/
theorem Idle.exists_current (h : Idle m fs) (hdir : Path.isAbsolute m.dir = true)
    (hlock : lockIn fs m.lockPath = .ok (some lock)) :
    ∀ u ∈ m.units, ∃ r, lock.find? u.source = some r ∧ Current fs u r := by
  have hrun := unitsRun_buildUnits (m.isFull_of_mem_units hdir) false (some lock) fs
  refine hrun.current_of_skipped ?_
  have houtcome := h.1
  rw [run_build, hlock] at houtcome
  rcases hx : (buildUnits false (some lock) m.units).run fs with
    ⟨⟨results, records, _ | stop⟩, gs⟩
  · simp only [hx] at houtcome
    split at houtcome
    · simp at houtcome
    · simpa using houtcome
  · have hending := Stop.map_outcome_ne stop results
    simp only [hx] at houtcome
    rw [houtcome] at hending
    exact absurd rfl hending

/-- Only one record is found for a source, and it has one output.  So units with different outputs
that all find their records have different sources. -/
theorem nodup_source_of_find? (hnodup : (us.map BuildUnit.output).Nodup)
    (h : ∀ u ∈ us, ∃ r, lock.find? u.source = some r ∧ r.output = u.output) :
    (us.map BuildUnit.source).Nodup := by
  refine List.Nodup.of_map (fun s => (lock.find? s).map LockedUnit.output) ?_
  have houtputs : (us.map BuildUnit.source).map (fun s => (lock.find? s).map LockedUnit.output) =
      (us.map BuildUnit.output).map some := by
    rw [List.map_map, List.map_map]
    refine List.map_congr_left fun u hu => ?_
    obtain ⟨r, hfind, houtput⟩ := h u hu
    simp [hfind, houtput]
  rw [houtputs]
  exact hnodup.map (Option.some_injective _)

/-- When a build is idle, given that the lock file holds a record of every unit. -/
theorem idle_iff (hdir : Path.isAbsolute m.dir = true)
    (hnodup : (m.units.map BuildUnit.output).Nodup) {rs : List LockedUnit}
    (hunits : rs.map LockedUnit.unit = m.units) (hdigests : ∀ r ∈ rs, HasDigests r)
    (hread : fs.read m.lockPath = .ok (Lock.toFile ⟨rs⟩)) : Idle m fs ↔
      (m.units.map BuildUnit.source).Nodup ∧
        (∀ u ∈ m.units, Utf8.isValid u.source = true ∧ Utf8.isValid u.output = true) ∧
          ∀ r ∈ rs, Current fs r.unit r := by
  have hvalid : (∀ u ∈ m.units, Utf8.isValid u.source = true ∧ Utf8.isValid u.output = true) ↔
      ∀ r ∈ rs, Lock.ValidRecord r := by
    rw [← hunits, List.forall_mem_map]
    exact forall₂_congr fun r hr => (validRecord_iff (hdigests r hr)).symm
  have hsources : m.units.map BuildUnit.source = rs.map LockedUnit.source := by
    rw [← hunits, List.map_map]
    rfl
  have hlock := lockIn_of_read_eq_ok hread
  rw [Lock.ofFile?_toFile] at hlock
  rw [hvalid]
  constructor
  · intro hidle
    by_cases hall : ∀ r ∈ rs, Lock.ValidRecord r
    · rw [if_pos hall] at hlock
      have hfound := hidle.exists_current hdir hlock
      have houtput : ∀ u ∈ m.units, ∃ r, Lock.find? ⟨rs⟩ u.source = some r ∧
          r.output = u.output := by
        intro u hu
        obtain ⟨r, hfind, src, out, -, -, houtput, -⟩ := hfound u hu
        exact ⟨r, hfind, houtput⟩
      have hsource := nodup_source_of_find? hnodup houtput
      refine ⟨hsource, hall, fun r hr => ?_⟩
      obtain ⟨r', hfind, hcurrent⟩ := hfound r.unit (hunits ▸ List.mem_map_of_mem hr)
      cases hfind.symm.trans (find?_of_nodup (hsources ▸ hsource) hr)
      exact hcurrent
    · -- a lock file that cannot be read back ends the build
      have houtcome := hidle.1
      rw [if_neg hall] at hlock
      rw [run_build, hlock] at houtcome
      simp at houtcome
  · rintro ⟨hsource, hall, hcurrent⟩
    rw [if_pos hall] at hlock
    rw [hsources] at hsource
    have hrun : (buildUnits false (some ⟨rs⟩) m.units).run fs =
        (⟨m.units.map (⟨·, true, 0⟩), rs, none⟩, fs) := by
      rw [← hunits]
      exact run_buildUnits_of_current fun r hr => ⟨find?_of_nodup hsource hr, hcurrent r hr⟩
    obtain ⟨gs, hinstall, hsame⟩ := install_of_read_eq_ok (m.isFull_lockPath hdir) hread
    rw [Idle, run_build, hlock]
    simp only [hrun, hinstall]
    exact ⟨trivial, hsame⟩

/-- What a build without failure leaves: a lock file with a record for every unit.  The records are
true if the lock file and the files of the units are apart. -/
theorem exists_records_of_build (hdir : Path.isAbsolute m.dir = true)
    (hending : ending m force fs = .ok none) :
    ∃ rs : List LockedUnit, rs.map LockedUnit.unit = m.units ∧ (∀ r ∈ rs, HasDigests r) ∧
      ((m.build force).run fs).2.read m.lockPath = .ok (Lock.toFile ⟨rs⟩) ∧
      (Apart m.units → (∀ u ∈ m.units, u.source ≠ m.lockPath ∧ u.output ≠ m.lockPath) →
        ∀ r ∈ rs, Current ((m.build force).run fs).2 r.unit r) := by
  have hfull := m.isFull_of_mem_units hdir
  have hlockPath := m.isFull_lockPath hdir
  have hrun := buildRun_build hdir force fs
  rw [ending] at hending
  generalize (m.build force).run fs = x at hrun hending
  cases hrun with
  | unusable hlock => cases hending
  | stopped hlock hunits hstop => exact absurd hending (Stop.map_outcome_ne _ _)
  | unwritable hlock hunits hdone hinstall => cases hending
  | @built lock progress gs' _ hlock hunits hdone hinstall =>
    obtain ⟨hchanges, hread⟩ := changes_of_install_eq_ok hlockPath hinstall
    have hrecords := hunits.records_unit hdone
    refine ⟨progress.records, hrecords, hunits.hasDigests, hread, fun hapart hne r hr => ?_⟩
    -- writing the lock file touches neither the source nor the output of a unit
    have hr' : r.unit ∈ m.units := hrecords ▸ List.mem_map_of_mem hr
    have hcurrent : Current gs' r.unit r :=
      hunits.forall_records (P := Current) Current.of_changes
        (fun hu hne hunit => hunit.current hu hne) hfull hapart r hr
    exact hcurrent.of_changes (hfull _ hr') hchanges
      ((hfull _ hr').source.segments_not_mem_singleton hlockPath (hne _ hr').1)
      ((hfull _ hr').output.segments_not_mem_singleton hlockPath (hne _ hr').2)

end Build

/-- When building a loaded project for the second time is idle: exactly when no two units have one
source, the paths of the units are valid UTF-8, and the records of the first build are true of the
files that it left.  They are true if no output is a source or the lock file and no source is the
lock file. -/
theorem Manifest.idle_after_build_iff {dir : Bytes} {fs₀ fs : FileSystem} {m : Manifest}
    (hload : ((load dir).run fs₀).1 = .ok m)
    (hbuild : Build.ending m false fs = .ok none) :
    ∃ lock : Lock, lock.units.map LockedUnit.unit = m.units ∧
      ((m.build false).run fs).2.read m.lockPath = .ok lock.toFile ∧
      (Build.Idle m ((m.build false).run fs).2 ↔
        (m.units.map BuildUnit.source).Nodup ∧
          (∀ u ∈ m.units, Utf8.isValid u.source = true ∧ Utf8.isValid u.output = true) ∧
            ∀ r ∈ lock.units, Build.Current ((m.build false).run fs).2 r.unit r) ∧
      (Build.Apart m.units →
        (∀ u ∈ m.units, u.source ≠ m.lockPath ∧ u.output ≠ m.lockPath) →
          ∀ r ∈ lock.units, Build.Current ((m.build false).run fs).2 r.unit r) := by
  obtain ⟨hdir, hnodup⟩ := of_load_eq_ok hload
  obtain ⟨rs, hunits, hdigests, hread, hcurrent⟩ := Build.exists_records_of_build hdir hbuild
  exact ⟨⟨rs⟩, hunits, hread, Build.idle_iff hdir hnodup hunits hdigests hread, hcurrent⟩

/-- A source with nothing in its function. -/
def emptySource : Bytes :=
  [ utf8 ".version 5.1 .format 0 ", utf8 ".endianness LITTLE ", utf8 ".int_size 1 ",
    utf8 ".size_t_size 1 ", utf8 ".instruction_size 4 ", utf8 ".number_format float 8\n",
    utf8 ".function main .source \"\" ", utf8 ".linedefined 0 ", utf8 ".lastlinedefined 0 ",
    utf8 ".numparams 0 .is_vararg 0 ", utf8 ".maxstacksize 2\n" ].flatten

/-- A project with two units that are made from one source. -/
def twinFiles : FileSystem where
  entries :=
    [ ([utf8 "p"], .directory), ([utf8 "p", utf8 "a"], .file emptySource),
      ([utf8 "p", Manifest.fileName], .file
        [ utf8 "[[unit]]\n", utf8 "source = \"a\"\n", utf8 "output = \"x\"\n",
          utf8 "[[unit]]\n", utf8 "source = \"a\"\n", utf8 "output = \"y\"\n" ].flatten) ]
  working := []

/-- The manifest of the project. -/
def twinManifest : Manifest where
  name := []
  outDir := utf8 "build"
  entries := [⟨utf8 "a", utf8 "x"⟩, ⟨utf8 "a", utf8 "y"⟩]
  verbosity := 0
  logFile := []
  dir := utf8 "/p"

/-- One of two units with the same source is never skipped. -/
theorem not_idle_twinManifest :
    ((Manifest.load (utf8 "/p")).run twinFiles).1 = .ok twinManifest ∧
      Build.ending twinManifest false twinFiles = .ok none ∧
        ¬Build.Idle twinManifest ((twinManifest.build false).run twinFiles).2 := by
  have hload : ((Manifest.load (utf8 "/p")).run twinFiles).1 = .ok twinManifest := by
    decide +kernel
  have hbuild : Build.ending twinManifest false twinFiles = .ok none := by
    decide +kernel
  refine ⟨hload, hbuild, fun hidle => ?_⟩
  obtain ⟨lock, -, -, hiff, -⟩ := Manifest.idle_after_build_iff hload hbuild
  have hsources : ¬(twinManifest.units.map BuildUnit.source).Nodup := by decide +kernel
  exact hsources (hiff.1 hidle).1

end LuaAssembly
