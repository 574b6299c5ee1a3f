import Mathlib
import LuaAssembly.Proofs.Storage.Install
import LuaAssembly.Project.Build

/-!
# What a build does

A build is described step by step: what becomes of one unit (`UnitRun`), of the units one after the
other (`UnitsRun`) and of the build as a whole (`BuildRun`).  From the steps follow the frame of a
build, which files it may change at all, and the shape of the records that it leaves: they belong to
the units in order and hold digests of what was read and written.
-/
namespace LuaAssembly

open FileSystem FileTask

/-! ## Paths -/

/-- The paths of a unit are full. -/
structure BuildUnit.IsFull (u : BuildUnit) : Prop where
  source : Path.IsFull u.source
  output : Path.IsFull u.output

namespace Manifest

variable {m : Manifest}

theorem isFull_outPath (h : Path.isAbsolute m.dir = true) : Path.IsFull m.outPath :=
  Path.isFull_resolve h _

theorem isFull_lockPath (h : Path.isAbsolute m.dir = true) : Path.IsFull m.lockPath :=
  Path.isFull_join (isFull_outPath h).absolute _

theorem isFull_of_mem_units (h : Path.isAbsolute m.dir = true) : ∀ u ∈ m.units, u.IsFull := by
  intro u hu
  rw [units, List.mem_map] at hu
  obtain ⟨e, -, rfl⟩ := hu
  exact ⟨Path.isFull_resolve h _, Path.isFull_resolve (isFull_outPath h).absolute _⟩

end Manifest

/-- The unit that a record is about. -/
def LockedUnit.unit (r : LockedUnit) : BuildUnit :=
  ⟨r.source, r.output⟩

namespace Build

variable {force : Bool} {u : BuildUnit} {record : Option LockedUnit} {r : LockedUnit}
  {fs gs hs : FileSystem} {lock : Option Lock} {us : List BuildUnit}

/-! ## One unit -/

/-- The output of a unit is as the record says, and so is the source that it was made from. -/
def Current (fs : FileSystem) (u : BuildUnit) (r : LockedUnit) : Prop :=
  ∃ src out, fs.read u.source = .ok src ∧ r.sourceDigest = digest src ∧ r.output = u.output ∧
    fs.read u.output = .ok out ∧ r.outputDigest = digest out

theorem run_currentRecord? (u : BuildUnit) (src : Bytes) (record : Option LockedUnit)
    (fs : FileSystem) : ((currentRecord? u src record).run fs).2 = fs := by
  cases record with
  | none => rfl
  | some r =>
    rw [currentRecord?]
    split_ifs
    · rw [run_bind, run_readFile]
      cases fs.read u.output <;> rfl
    · rfl

theorem run_currentRecord?_eq_some_iff {src : Bytes} (hsrc : fs.read u.source = .ok src) :
    ((currentRecord? u src record).run fs).1 = some r ↔ record = some r ∧ Current fs u r := by
  have hcurrent : Current fs u r ↔ r.sourceDigest = digest src ∧ r.output = u.output ∧
      ∃ out, fs.read u.output = .ok out ∧ r.outputDigest = digest out := by
    constructor
    · rintro ⟨src', out, hread, hdigest, hpath, hout⟩
      cases hsrc.symm.trans hread
      exact ⟨hdigest, hpath, out, hout⟩
    · rintro ⟨hdigest, hpath, out, hout⟩
      exact ⟨src, out, hsrc, hdigest, hpath, hout⟩
  rw [hcurrent]
  cases record with
  | none => simp [currentRecord?]
  | some r' =>
    rw [currentRecord?]
    split_ifs with hrecorded
    · rw [run_bind, run_readFile]
      simp only [isRecorded, Bool.and_eq_true, decide_eq_true_eq] at hrecorded
      cases hout : fs.read u.output with
      | error problem => simp
      | ok out =>
        simp only [run_pure]
        split_ifs with hdigest
        · simp only [Option.some.injEq, Except.ok.injEq, exists_eq_left']
          constructor
          · rintro rfl
            exact ⟨rfl, hrecorded.1, hrecorded.2, hdigest.symm⟩
          · exact fun h => h.1
        · simp only [Option.some.injEq, Except.ok.injEq, exists_eq_left', false_iff, not_and]
          rintro rfl - - h
          exact hdigest h.symm
    · simp only [run_pure, reduceCtorEq, Option.some.injEq, false_iff, not_and]
      rintro rfl hsource hpath
      simp [isRecorded, hsource, hpath] at hrecorded

/-- The run of a unit, with a record from the last build. -/
inductive UnitRun (force : Bool) (u : BuildUnit) (record : Option LockedUnit) (fs : FileSystem) :
    Except Stop (BuildResult × LockedUnit) × FileSystem → Prop where
  /-- The unit is current and nothing is done. -/
  | skipped {r : LockedUnit} (hforce : force = false) (hrecord : record = some r)
    (hcurrent : Current fs u r) : UnitRun force u record fs (.ok (⟨u, true, 0⟩, r), fs)
  /-- The unit is assembled and its output installed. -/
  | rebuilt {src bin : Bytes} {gs : FileSystem} (hread : fs.read u.source = .ok src)
    (hassembled : assembled u src = .ok bin)
    (hinstall : (install u.output bin).run fs = (.ok (), gs)) :
    UnitRun force u record fs
      (.ok (⟨u, false, bin.length⟩, ⟨u.source, digest src, u.output, digest bin⟩), gs)
  /-- The unit cannot be built, and no file has changed. -/
  | failed {stop : Stop} {gs : FileSystem} (hchanges : Changes ∅ fs gs) :
    UnitRun force u record fs (.error stop, gs)

theorem run_rebuild (u : BuildUnit) (src : Bytes) (fs : FileSystem) : (rebuild u src).run fs =
    match assembled u src with
    | .error stop => (.error stop, fs)
    | .ok bin =>
      match (install u.output bin).run fs with
      | (.error problem, gs) => (.error (.failure (.file problem)), gs)
      | (.ok (), gs) =>
        (.ok (⟨u, false, bin.length⟩, ⟨u.source, digest src, u.output, digest bin⟩), gs) := by
  rw [rebuild]
  cases assembled u src with
  | error stop => rfl
  | ok bin =>
    simp only [run_install, run_bind, run_makePath]
    cases fs.makeDirectories (Path.directory u.output) with
    | error problem => rfl
    | ok gs =>
      simp only [settle, run_bind, run_writeFile]
      cases gs.write u.output bin <;> rfl

/-- A unit that is not current is built as if it were forced. -/
theorem run_buildUnit_of_not_current (h : force = true ∨ ∀ r ∈ record, ¬Current fs u r) :
    (buildUnit force u record).run fs =
      match fs.read u.source with
      | .error problem => (.error (.failure (.file problem)), fs)
      | .ok src => (rebuild u src).run fs := by
  rw [buildUnit, run_bind, run_readFile]
  cases hsrc : fs.read u.source with
  | error problem => rfl
  | ok src =>
    have hnone : ((currentRecord? u src (if force then none else record)).run fs).1 = none := by
      by_contra hne
      obtain ⟨r, hr⟩ := Option.ne_none_iff_exists'.1 hne
      obtain ⟨hrecord, hcurrent⟩ := (run_currentRecord?_eq_some_iff hsrc).1 hr
      rcases h with rfl | h
      · simp at hrecord
      · split_ifs at hrecord
        exact h r hrecord hcurrent
    simp only [run_bind, run_currentRecord?, hnone]

theorem run_buildUnit_of_current (h : Current fs u r) :
    (buildUnit false u (some r)).run fs = (.ok (⟨u, true, 0⟩, r), fs) := by
  obtain ⟨src, out, hsrc, -⟩ := id h
  have hsome : ((currentRecord? u src (some r)).run fs).1 = some r :=
    (run_currentRecord?_eq_some_iff hsrc).2 ⟨rfl, h⟩
  rw [buildUnit, run_bind, run_readFile, hsrc]
  simp only [run_bind, Bool.false_eq_true, if_false, hsome, run_currentRecord?]
  rfl

/-- What becomes of a unit. -/
theorem unitRun_buildUnit (hu : u.IsFull) (force : Bool) (record : Option LockedUnit)
    (fs : FileSystem) : UnitRun force u record fs ((buildUnit force u record).run fs) := by
  by_cases hskip : force = false ∧ ∃ r, record = some r ∧ Current fs u r
  · obtain ⟨rfl, r, rfl, hcurrent⟩ := hskip
    rw [run_buildUnit_of_current hcurrent]
    exact .skipped rfl rfl hcurrent
  · have hbuild : force = true ∨ ∀ r ∈ record, ¬Current fs u r := by
      by_contra hnot
      push Not at hnot
      obtain ⟨hforce, r, hr, hcurrent⟩ := hnot
      exact hskip ⟨by simpa using hforce, r, hr, hcurrent⟩
    rw [run_buildUnit_of_not_current hbuild]
    cases hsrc : fs.read u.source with
    | error problem => exact .failed (Changes.refl fs)
    | ok src =>
      simp only [run_rebuild]
      cases hassembled : assembled u src with
      | error stop => exact .failed (Changes.refl fs)
      | ok bin =>
        rcases hinstall : (install u.output bin).run fs with ⟨problem | ⟨⟩, gs⟩
        · simp only [hinstall]
          exact .failed (changes_of_install_eq_error hu.output hinstall)
        · simp only [hinstall]
          exact .rebuilt hsrc hassembled hinstall

/-! ## All units -/

/-- The run of units one after the other. -/
inductive UnitsRun (force : Bool) (lock : Option Lock) :
    List BuildUnit → FileSystem → Progress × FileSystem → Prop where
  | done (fs : FileSystem) : UnitsRun force lock [] fs (⟨[], [], none⟩, fs)
  | stopped {u : BuildUnit} {us : List BuildUnit} {fs gs : FileSystem} {stop : Stop}
    (hunit : UnitRun force u (lock.bind (·.find? u.source)) fs (.error stop, gs)) :
    UnitsRun force lock (u :: us) fs (⟨[], [], some stop⟩, gs)
  | next {u : BuildUnit} {us : List BuildUnit} {fs gs hs : FileSystem} {result : BuildResult}
    {r : LockedUnit} {later : Progress}
    (hunit : UnitRun force u (lock.bind (·.find? u.source)) fs (.ok (result, r), gs))
    (hlater : UnitsRun force lock us gs (later, hs)) :
    UnitsRun force lock (u :: us) fs
      (⟨result :: later.results, r :: later.records, later.stop⟩, hs)

/-- Induction on a run that names its progress and its last files. -/
@[elab_as_elim]
theorem UnitsRun.pair_induction {lock : Option Lock}
    {motive : (us : List BuildUnit) → (fs : FileSystem) → (progress : Progress) →
      (gs : FileSystem) → UnitsRun force lock us fs (progress, gs) → Prop}
    (done : ∀ fs, motive [] fs ⟨[], [], none⟩ fs (.done fs))
    (stopped : ∀ {u us fs gs stop}
      (hunit : UnitRun force u (lock.bind (·.find? u.source)) fs (.error stop, gs)),
      motive (u :: us) fs ⟨[], [], some stop⟩ gs (.stopped hunit))
    (next : ∀ {u us fs gs hs result r later}
      (hunit : UnitRun force u (lock.bind (·.find? u.source)) fs (.ok (result, r), gs))
      (hlater : UnitsRun force lock us gs (later, hs)), motive us gs later hs hlater →
      motive (u :: us) fs ⟨result :: later.results, r :: later.records, later.stop⟩ hs
        (.next hunit hlater))
    {us : List BuildUnit} {fs : FileSystem} {progress : Progress} {gs : FileSystem}
    (h : UnitsRun force lock us fs (progress, gs)) : motive us fs progress gs h :=
  UnitsRun.rec (motive := fun us fs x h => motive us fs x.1 x.2 h) done stopped next h

theorem run_buildUnits_cons (force : Bool) (lock : Option Lock) (u : BuildUnit)
    (us : List BuildUnit) (fs : FileSystem) : (buildUnits force lock (u :: us)).run fs =
      match (buildUnit force u (lock.bind (·.find? u.source))).run fs with
      | (.error stop, gs) => (⟨[], [], some stop⟩, gs)
      | (.ok (result, r), gs) =>
        (⟨result :: ((buildUnits force lock us).run gs).1.results,
          r :: ((buildUnits force lock us).run gs).1.records,
          ((buildUnits force lock us).run gs).1.stop⟩,
          ((buildUnits force lock us).run gs).2) := by
  rw [buildUnits, run_bind]
  rcases (buildUnit force u (lock.bind (·.find? u.source))).run fs with ⟨stop | ⟨result, r⟩, gs⟩
  · rfl
  · simp only [run_bind, run_pure]

/-- What becomes of the units. -/
theorem unitsRun_buildUnits (hus : ∀ u ∈ us, u.IsFull) (force : Bool) (lock : Option Lock)
    (fs : FileSystem) : UnitsRun force lock us fs ((buildUnits force lock us).run fs) := by
  induction us generalizing fs with
  | nil => exact .done fs
  | cons u us ih =>
    rw [List.forall_mem_cons] at hus
    have hunit := unitRun_buildUnit hus.1 force (lock.bind (·.find? u.source)) fs
    rw [run_buildUnits_cons]
    rcases hrun : (buildUnit force u (lock.bind (·.find? u.source))).run fs with
      ⟨stop | ⟨result, r⟩, gs⟩
    · rw [hrun] at hunit
      exact .stopped hunit
    · rw [hrun] at hunit
      exact .next hunit (ih hus.2 gs)

/-! ## Which files change -/

/-- The places that units write to. -/
def outputPlaces (us : List BuildUnit) : Set Location :=
  {place | ∃ u ∈ us, place = Path.segments u.output}

theorem outputPlaces_cons (u : BuildUnit) (us : List BuildUnit) :
    outputPlaces (u :: us) = {Path.segments u.output} ∪ outputPlaces us := by
  ext place
  simp [outputPlaces]

theorem segments_not_mem_outputPlaces (hus : ∀ u ∈ us, u.IsFull) {p : Bytes} (hp : Path.IsFull p)
    (hne : ∀ u ∈ us, p ≠ u.output) : Path.segments p ∉ outputPlaces us := by
  rintro ⟨u, hu, heq⟩
  exact hne u hu ((hp.segments_inj (hus u hu).output).1 heq)

theorem UnitRun.changes {x : Except Stop (BuildResult × LockedUnit)} (hu : u.IsFull)
    (h : UnitRun force u record fs (x, gs)) : Changes {Path.segments u.output} fs gs := by
  cases h with
  | skipped => exact Changes.refl fs
  | rebuilt hread hassembled hinstall => exact (changes_of_install_eq_ok hu.output hinstall).1
  | failed hchanges => exact hchanges.mono (Set.empty_subset _)

/-- Building units changes no file but their outputs. -/
theorem UnitsRun.changes {progress : Progress} (hus : ∀ u ∈ us, u.IsFull)
    (h : UnitsRun force lock us fs (progress, gs)) : Changes (outputPlaces us) fs gs := by
  induction h using UnitsRun.pair_induction with
  | done fs =>
    exact Changes.refl _
  | stopped hunit =>
    rw [outputPlaces_cons]
    exact (hunit.changes (hus _ (List.mem_cons_self ..))).mono Set.subset_union_left
  | next hunit hlater ih =>
    rw [List.forall_mem_cons] at hus
    rw [outputPlaces_cons]
    exact ((hunit.changes hus.1).mono Set.subset_union_left).trans
      ((ih hus.2).mono Set.subset_union_right)

theorem Current.of_changes {only : Set Location} (hu : u.IsFull) (hchanges : Changes only fs gs)
    (hsource : Path.segments u.source ∉ only) (houtput : Path.segments u.output ∉ only)
    (h : Current fs u r) : Current gs u r := by
  obtain ⟨src, out, hsrc, hdigest, hpath, hout, hdigest'⟩ := h
  exact ⟨src, out, hchanges.read hu.source hsource hsrc, hdigest, hpath,
    hchanges.read hu.output houtput hout, hdigest'⟩

/-! ## Records -/

theorem UnitRun.unit_eq {lock : Option Lock} {result : BuildResult}
    (h : UnitRun force u (lock.bind (·.find? u.source)) fs (.ok (result, r), gs)) :
    r.unit = u := by
  cases h with
  | skipped hforce hrecord hcurrent =>
    obtain ⟨src, out, -, -, hpath, -⟩ := hcurrent
    obtain ⟨lock, -, hfind⟩ := Option.bind_eq_some_iff.1 hrecord
    have hsource := List.find?_some hfind
    rw [decide_eq_true_eq] at hsource
    rw [LockedUnit.unit, hsource, hpath]
  | rebuilt hread hassembled hinstall => rfl

/-- The records belong to the units, in order. -/
theorem UnitsRun.records_unit {progress : Progress}
    (h : UnitsRun force lock us fs (progress, gs)) (hstop : progress.stop = none) :
    progress.records.map LockedUnit.unit = us := by
  induction h using UnitsRun.pair_induction with
  | done fs =>
    rfl
  | stopped hunit =>
    cases hstop
  | next hunit hlater ih =>
    rw [List.map_cons, hunit.unit_eq, List.cons.injEq]
    exact ⟨rfl, ih hstop⟩

/-- No unit writes what another one writes or what any unit reads. -/
structure Apart (us : List BuildUnit) : Prop where
  nodup : (us.map BuildUnit.output).Nodup
  source_ne : ∀ u ∈ us, ∀ v ∈ us, u.source ≠ v.output

theorem Apart.tail (h : Apart (u :: us)) : Apart us := by
  refine ⟨?_, fun v hv w hw => h.source_ne v (List.mem_cons_of_mem _ hv) w
    (List.mem_cons_of_mem _ hw)⟩
  have hnodup := h.nodup
  rw [List.map_cons, List.nodup_cons] at hnodup
  exact hnodup.2

theorem Apart.output_ne (h : Apart (u :: us)) : ∀ v ∈ us, u.output ≠ v.output := by
  intro v hv heq
  have hnodup := h.nodup
  rw [List.map_cons, List.nodup_cons] at hnodup
  exact hnodup.1 (List.mem_map.2 ⟨v, hv, heq.symm⟩)

/-- After a unit was built its record is true. -/
theorem UnitRun.current {result : BuildResult} (hu : u.IsFull) (hne : u.source ≠ u.output)
    (h : UnitRun force u record fs (.ok (result, r), gs)) : Current gs u r := by
  cases h with
  | skipped hforce hrecord hcurrent => exact hcurrent
  | rebuilt hread hassembled hinstall =>
    obtain ⟨hchanges, hout⟩ := changes_of_install_eq_ok hu.output hinstall
    have hsource := hu.source.segments_not_mem_singleton hu.output hne
    exact ⟨_, _, hchanges.read hu.source hsource hread, rfl, rfl, hout, rfl⟩

/-- What holds of a unit and its record when the unit was built holds at the end, if it depends only
on the source and the output: units that are apart do not disturb each other. -/
theorem UnitsRun.forall_records {P : FileSystem → BuildUnit → LockedUnit → Prop}
    (hstable : ∀ {only : Set Location} {fs gs : FileSystem} {u : BuildUnit} {r : LockedUnit},
      u.IsFull → Changes only fs gs → Path.segments u.source ∉ only →
        Path.segments u.output ∉ only → P fs u r → P gs u r)
    (hunit : ∀ {u : BuildUnit} {fs gs : FileSystem} {result : BuildResult} {r : LockedUnit},
      u.IsFull → u.source ≠ u.output →
        UnitRun force u (lock.bind (·.find? u.source)) fs (.ok (result, r), gs) → P gs u r)
    {progress : Progress} (hus : ∀ u ∈ us, u.IsFull) (hapart : Apart us)
    (h : UnitsRun force lock us fs (progress, gs)) : ∀ r ∈ progress.records, P gs r.unit r := by
  induction h using UnitsRun.pair_induction with
  | done fs =>
    simp
  | stopped hfirst =>
    simp
  | @next u us fs gs hs result r later hfirst hlater ih =>
    rw [List.forall_mem_cons] at hus
    rw [List.forall_mem_cons]
    refine ⟨?_, ih hus.2 hapart.tail⟩
    have hmem : u ∈ u :: us := List.mem_cons_self
    rw [hfirst.unit_eq]
    -- the units that follow write neither the source nor the output
    refine hstable hus.1 (hlater.changes hus.2) ?_ ?_
      (hunit hus.1 (hapart.source_ne u hmem u hmem) hfirst)
    · exact segments_not_mem_outputPlaces hus.2 hus.1.source
        fun v hv => hapart.source_ne u hmem v (List.mem_cons_of_mem _ hv)
    · exact segments_not_mem_outputPlaces hus.2 hus.1.output hapart.output_ne

/-! ## The whole build -/

/-- What a build finds in the lock file. -/
def lockIn (fs : FileSystem) (path : Bytes) : Except LockProblem (Option Lock) :=
  ((Lock.read path).run fs).1

theorem run_read_lock (fs : FileSystem) (path : Bytes) :
    (Lock.read path).run fs = (lockIn fs path, fs) := by
  rw [lockIn, Lock.read, run_bind, run_readFile]
  cases fs.read path with
  | error problem => rfl
  | ok contents =>
    simp only
    cases Lock.ofFile? contents <;> rfl

theorem lockIn_of_read_eq_ok {path contents : Bytes} (h : fs.read path = .ok contents) :
    lockIn fs path =
      match Lock.ofFile? contents with
      | some lock => .ok (some lock)
      | none => .error (.malformed path) := by
  rw [lockIn, Lock.read, run_bind, run_readFile, h]
  simp only
  cases Lock.ofFile? contents <;> rfl

theorem exists_of_lockIn_eq_some {path : Bytes} {l : Lock} (h : lockIn fs path = .ok (some l)) :
    ∃ contents, fs.read path = .ok contents ∧ Lock.ofFile? contents = some l := by
  cases hread : fs.read path with
  | error problem =>
    rw [lockIn, Lock.read, run_bind, run_readFile, hread] at h
    simp only [run_pure] at h
    split_ifs at h
    cases h
  | ok contents =>
    rw [lockIn_of_read_eq_ok hread] at h
    refine ⟨contents, rfl, ?_⟩
    split at h
    · next hfile =>
      cases h
      exact hfile
    · cases h

/-- How a build ends: with a fault, with a failure, or without one. -/
def ending (m : Manifest) (force : Bool) (fs : FileSystem) : Except Fault (Option BuildFailure) :=
  ((m.build force).run fs).1.map BuildOutcome.failure

theorem Stop.map_outcome_congr (stop : Stop) (results results' : List BuildResult) :
    (stop.outcome results).map BuildOutcome.failure =
      (stop.outcome results').map BuildOutcome.failure := by
  cases stop <;> rfl

theorem Stop.map_outcome_ne (stop : Stop) (results : List BuildResult) :
    (stop.outcome results).map BuildOutcome.failure ≠ .ok none := by
  cases stop <;> simp [Stop.outcome, Except.map]

/-- The run of a build. -/
inductive BuildRun (m : Manifest) (force : Bool) (fs : FileSystem) :
    Except Fault BuildOutcome × FileSystem → Prop where
  | unusable {problem : LockProblem} (hlock : lockIn fs m.lockPath = .error problem) :
    BuildRun m force fs (.ok ⟨[], some (.lockUnusable problem)⟩, fs)
  | stopped {lock : Option Lock} {progress : Progress} {gs : FileSystem} {stop : Stop}
    (hlock : lockIn fs m.lockPath = .ok lock)
    (hunits : UnitsRun force lock m.units fs (progress, gs))
    (hstop : progress.stop = some stop) :
    BuildRun m force fs (stop.outcome progress.results, gs)
  | unwritable {lock : Option Lock} {progress : Progress} {gs hs : FileSystem}
    {problem : FileProblem} (hlock : lockIn fs m.lockPath = .ok lock)
    (hunits : UnitsRun force lock m.units fs (progress, gs)) (hstop : progress.stop = none)
    (hinstall : (install m.lockPath (Lock.toFile ⟨progress.records⟩)).run gs =
      (.error problem, hs)) :
    BuildRun m force fs (.ok ⟨progress.results, some (.lockUnwritable problem)⟩, hs)
  | built {lock : Option Lock} {progress : Progress} {gs hs : FileSystem}
    (hlock : lockIn fs m.lockPath = .ok lock)
    (hunits : UnitsRun force lock m.units fs (progress, gs)) (hstop : progress.stop = none)
    (hinstall : (install m.lockPath (Lock.toFile ⟨progress.records⟩)).run gs = (.ok (), hs)) :
    BuildRun m force fs (.ok ⟨progress.results, none⟩, hs)

theorem run_build (m : Manifest) (force : Bool) (fs : FileSystem) : (m.build force).run fs =
    match lockIn fs m.lockPath with
    | .error problem => (.ok ⟨[], some (.lockUnusable problem)⟩, fs)
    | .ok lock =>
      match (buildUnits force lock m.units).run fs with
      | (⟨results, _, some stop⟩, gs) => (stop.outcome results, gs)
      | (⟨results, records, none⟩, gs) =>
        match (install m.lockPath (Lock.toFile ⟨records⟩)).run gs with
        | (.error problem, hs) => (.ok ⟨results, some (.lockUnwritable problem)⟩, hs)
        | (.ok (), hs) => (.ok ⟨results, none⟩, hs) := by
  rw [Manifest.build, run_bind, run_read_lock]
  cases lockIn fs m.lockPath with
  | error problem => rfl
  | ok lock =>
    simp only [run_bind]
    rcases (buildUnits force lock m.units).run fs with ⟨⟨results, records, _ | stop⟩, gs⟩
    · have hwrite : Lock.write m.lockPath ⟨records⟩ =
          install m.lockPath (Lock.toFile ⟨records⟩) := rfl
      simp only [run_bind, hwrite]
      rcases (install m.lockPath (Lock.toFile ⟨records⟩)).run gs with ⟨problem | ⟨⟩, hs⟩ <;> rfl
    · rfl

/-- What becomes of a build. -/
theorem buildRun_build {m : Manifest} (hdir : Path.isAbsolute m.dir = true) (force : Bool)
    (fs : FileSystem) : BuildRun m force fs ((m.build force).run fs) := by
  rw [run_build]
  cases hlock : lockIn fs m.lockPath with
  | error problem => exact .unusable hlock
  | ok lock =>
    have hunits := unitsRun_buildUnits (Manifest.isFull_of_mem_units hdir) force lock fs
    simp only
    rcases hrun : (buildUnits force lock m.units).run fs with ⟨⟨results, records, _ | stop⟩, gs⟩
    · rw [hrun] at hunits
      simp only
      rcases hinstall : (install m.lockPath (Lock.toFile ⟨records⟩)).run gs with ⟨problem | ⟨⟩, hs⟩
      · exact .unwritable hlock hunits rfl hinstall
      · exact .built hlock hunits rfl hinstall
    · rw [hrun] at hunits
      exact .stopped hlock hunits rfl

end Build

end LuaAssembly
