import Mathlib
import LuaAssembly.Proofs.Project.Incremental

/-!
# Builds that fail

When a source cannot be read or assembled, the build stops there.  The units before it are built and
stay built, the lock file is left alone, and so is every file that is not the output of a unit that
was assembled.  The main statement says all of this of the first unit whose source fails.  A failure
is returned with one result for each unit before; at a fault the build breaks off and returns
nothing, although the files are the same.
-/
namespace LuaAssembly

open FileSystem FileTask

namespace Build

variable {force : Bool} {u : BuildUnit} {record : Option LockedUnit} {fs gs : FileSystem}
  {lock : Option Lock} {us : List BuildUnit} {stop : Stop}

/-! ## The unit that fails -/

/-- The unit is not skipped, and its source cannot be read or assembled. -/
inductive SourceFails (force : Bool) (u : BuildUnit) (record : Option LockedUnit)
    (fs : FileSystem) : Stop → Prop where
  | unreadable {problem : FileProblem} (hread : fs.read u.source = .error problem) :
    SourceFails force u record fs (.failure (.file problem))
  | unassembled {src : Bytes} {stop : Stop} (hread : fs.read u.source = .ok src)
    (hcurrent : force = true ∨ ∀ r ∈ record, ¬Current fs u r)
    (hassembled : assembled u src = .error stop) : SourceFails force u record fs stop

/-- A unit whose source fails changes nothing. -/
theorem SourceFails.run_buildUnit (h : SourceFails force u record fs stop) :
    (buildUnit force u record).run fs = (.error stop, fs) := by
  cases h with
  | unreadable hread =>
    have hcurrent : ∀ r ∈ record, ¬Current fs u r := by
      rintro r - ⟨src, out, hsrc, -⟩
      rw [hread] at hsrc
      cases hsrc
    rw [run_buildUnit_of_not_current (.inr hcurrent), hread]
  | unassembled hread hcurrent hassembled =>
    rw [run_buildUnit_of_not_current hcurrent, hread]
    simp only [run_rebuild, hassembled]

/-! ## Units before it -/

/-- The files as the unit at place `i` finds them. -/
def filesBefore (force : Bool) (lock : Option Lock) (us : List BuildUnit) (i : Nat)
    (fs : FileSystem) : FileSystem :=
  ((buildUnits force lock (us.take i)).run fs).2

theorem filesBefore_zero (force : Bool) (lock : Option Lock) (us : List BuildUnit)
    (fs : FileSystem) : filesBefore force lock us 0 fs = fs := by
  rw [filesBefore, List.take_zero]
  rfl

theorem filesBefore_succ {result : BuildResult} {r : LockedUnit}
    (hunit : (buildUnit force u (lock.bind (·.find? u.source))).run fs = (.ok (result, r), gs))
    (i : Nat) : filesBefore force lock (u :: us) (i + 1) fs = filesBefore force lock us i gs := by
  rw [filesBefore, List.take_succ_cons, run_buildUnits_cons, hunit, filesBefore]

/-- The build stops at the first unit whose source fails, with the results of the units before. -/
theorem run_buildUnits_of_sourceFails {i : Nat} {before : Progress} (hi : us[i]? = some u)
    (hbefore : (buildUnits force lock (us.take i)).run fs = (before, gs))
    (hstop : before.stop = none)
    (hfails : SourceFails force u (lock.bind (·.find? u.source)) gs stop) :
    (buildUnits force lock us).run fs = ({ before with stop := some stop }, gs) := by
  induction us generalizing i fs before with
  | nil => simp at hi
  | cons v us ih =>
    cases i with
    | zero =>
      obtain rfl : v = u := by simpa using hi
      rw [List.take_zero] at hbefore
      cases hbefore
      rw [run_buildUnits_cons, hfails.run_buildUnit]
    | succ i =>
      rw [List.take_succ_cons, run_buildUnits_cons] at hbefore
      rw [run_buildUnits_cons]
      rcases hunit : (buildUnit force v (lock.bind (·.find? v.source))).run fs with
        ⟨early | ⟨result, r⟩, fs'⟩
      · rw [hunit] at hbefore
        cases hbefore
        cases hstop
      · rw [hunit] at hbefore
        cases hbefore
        simp only [ih hi rfl hstop]

/-! ## What was built -/

theorem UnitRun.result_unit {result : BuildResult} {r : LockedUnit}
    (h : UnitRun force u record fs (.ok (result, r), gs)) : result.unit = u := by
  cases h <;> rfl

/-- The results belong to the units, in order. -/
theorem UnitsRun.results_unit {progress : Progress}
    (h : UnitsRun force lock us fs (progress, gs)) (hstop : progress.stop = none) :
    progress.results.map BuildResult.unit = us := by
  induction h using UnitsRun.pair_induction with
  | done fs =>
    rfl
  | stopped hunit =>
    cases hstop
  | next hunit hlater ih =>
    rw [List.map_cons, hunit.result_unit, List.cons.injEq]
    exact ⟨rfl, ih hstop⟩

/-- The units that were assembled and not skipped. -/
def assembledUnits (results : List BuildResult) : List BuildUnit :=
  (results.filter fun result => !result.skipped).map BuildResult.unit

theorem UnitRun.changes_assembled {result : BuildResult} {r : LockedUnit} (hu : u.IsFull)
    (h : UnitRun force u record fs (.ok (result, r), gs)) :
    Changes (outputPlaces (assembledUnits [result])) fs gs := by
  cases h with
  | skipped => exact Changes.refl fs
  | rebuilt hread hassembled hinstall =>
    refine (changes_of_install_eq_ok hu.output hinstall).1.mono ?_
    rintro place rfl
    exact ⟨u, List.mem_singleton_self u, rfl⟩

/-- Only the outputs of units that were assembled are changed. -/
theorem UnitsRun.changes_assembled {progress : Progress} (hus : ∀ u ∈ us, u.IsFull)
    (h : UnitsRun force lock us fs (progress, gs)) :
    Changes (outputPlaces (assembledUnits progress.results)) fs gs := by
  induction h using UnitsRun.pair_induction with
  | done fs =>
    exact Changes.refl _
  | stopped hunit =>
    cases hunit with
    | failed hchanges => exact hchanges.mono (Set.empty_subset _)
  | @next u us fs gs hs result r later hunit hlater ih =>
    rw [List.forall_mem_cons] at hus
    have hplaces : outputPlaces (assembledUnits (result :: later.results)) =
        outputPlaces (assembledUnits [result]) ∪ outputPlaces (assembledUnits later.results) := by
      ext place
      cases hskipped : result.skipped <;> simp [outputPlaces, assembledUnits, hskipped]
    rw [hplaces]
    exact ((hunit.changes_assembled hus.1).mono Set.subset_union_left).trans
      ((ih hus.2).mono Set.subset_union_right)

/-- In the end the output of a unit that was assembled is what its source assembled to, as the
source was when the unit was built. -/
theorem exists_assembles_of_not_skipped (hus : ∀ u ∈ us, u.IsFull)
    (hnodup : (us.map BuildUnit.output).Nodup) {i : Nat} {result : BuildResult}
    (hresult : ((buildUnits force lock us).run fs).1.results[i]? = some result)
    (hskipped : result.skipped = false) :
    ∃ src bin, (filesBefore force lock us i fs).read result.unit.source = .ok src ∧
      Assembles src bin ∧
      ((buildUnits force lock us).run fs).2.read result.unit.output = .ok bin := by
  induction us generalizing i fs with
  | nil => cases hresult
  | cons u us ih =>
    rw [List.forall_mem_cons] at hus
    rw [List.map_cons, List.nodup_cons] at hnodup
    have hrun := unitRun_buildUnit hus.1 force (lock.bind (·.find? u.source)) fs
    rw [run_buildUnits_cons] at hresult ⊢
    rcases hunit : (buildUnit force u (lock.bind (·.find? u.source))).run fs with
      ⟨stop | ⟨first, r⟩, gs⟩
    · rw [hunit] at hresult
      simp at hresult
    · rw [hunit] at hresult hrun
      cases i with
      | zero =>
        obtain rfl : first = result := by simpa using hresult
        cases hrun with
        | skipped => cases hskipped
        | @rebuilt src bin _ hread hassembled hinstall =>
          refine ⟨src, bin, ?_, assembled_eq_ok_iff.1 hassembled, ?_⟩
          · rwa [filesBefore_zero]
          · -- the units that follow write other files
            have hlater := (unitsRun_buildUnits hus.2 force lock gs).changes hus.2
            refine hlater.read hus.1.output ?_ (changes_of_install_eq_ok hus.1.output hinstall).2
            refine segments_not_mem_outputPlaces hus.2 hus.1.output fun v hv heq => ?_
            exact hnodup.1 (heq ▸ List.mem_map_of_mem hv)
      | succ i =>
        rw [filesBefore_succ hunit]
        exact ih hus.2 hnodup.2 (by simpa using hresult)

/-! ## The whole build -/

theorem SourceFails.assembled_eq {src : Bytes} (h : SourceFails force u record fs stop)
    (hread : fs.read u.source = .ok src) : assembled u src = .error stop := by
  cases h with
  | unreadable hread' =>
    rw [hread] at hread'
    cases hread'
  | unassembled hread' _ hassembled =>
    cases hread.symm.trans hread'
    exact hassembled

theorem assembled_eq_fault_iff {src : Bytes} {f : Fault} :
    assembled u src = .error (.fault f) ↔ parse src = .error (.fault f) := by
  rw [assembled]
  rcases parse src with (e | f') | chunk
  · simp
  · simp
  · cases hencode : chunk.encode <;> simp [hencode]

/-- A source fails with a fault exactly if the assembler breaks off with it. -/
theorem SourceFails.eq_fault_iff {f : Fault} (h : SourceFails force u record fs stop) :
    stop = .fault f ↔ ∃ src, fs.read u.source = .ok src ∧ parse src = .error (.fault f) := by
  constructor
  · rintro rfl
    cases h with
    | unassembled hread _ hassembled => exact ⟨_, hread, assembled_eq_fault_iff.1 hassembled⟩
  · rintro ⟨src, hread, hparse⟩
    have hassembled := (h.assembled_eq hread).symm.trans (assembled_eq_fault_iff.2 hparse)
    exact Except.error.inj hassembled

end Build

open Build

/-- A build stops at the first unit whose source cannot be read or assembled.  It returns a failure
with one result for each unit before, unless the assembler breaks off with a fault: then the build
breaks off with the same fault.  In both cases the lock file is as it was, or there is still none;
only outputs of units that were assembled before have changed, and each of them holds what its
source assembled to, as the source was read.  An error in a source is reported behind the path of
the source. -/
theorem Manifest.build_of_sourceFails {dir : Bytes} {m : Manifest} {fs₀ fs gs : FileSystem}
    {force : Bool} {lock : Option Lock} {i : Nat} {u : BuildUnit} {results : List BuildResult}
    {records : List LockedUnit} {stop : Stop} (hload : ((load dir).run fs₀).1 = .ok m)
    (hlockPath : ∀ v ∈ m.units, m.lockPath ≠ v.output)
    (hlock : lockIn fs m.lockPath = .ok lock) (hi : m.units[i]? = some u)
    (hbefore : (buildUnits force lock (m.units.take i)).run fs = (⟨results, records, none⟩, gs))
    (hfails : SourceFails force u (lock.bind (·.find? u.source)) gs stop) :
    (∀ failure, stop = .failure failure →
        (m.build force).run fs = (.ok ⟨results, some failure⟩, gs)) ∧
      (∀ f, stop = .fault f → (m.build force).run fs = (.error f, gs)) ∧
      (∀ f, stop = .fault f ↔
        ∃ src, gs.read u.source = .ok src ∧ parse src = .error (.fault f)) ∧
      results.length = i ∧ results.map BuildResult.unit = m.units.take i ∧
      (∀ c, gs.Holds m.lockPath c ↔ fs.Holds m.lockPath c) ∧
      Changes (outputPlaces (assembledUnits results)) fs gs ∧
      (∀ j result, results[j]? = some result → result.skipped = false →
        ∃ src bin, (filesBefore force lock m.units j fs).read result.unit.source = .ok src ∧
          Assembles src bin ∧ gs.read result.unit.output = .ok bin) ∧
      ∀ src e, gs.read u.source = .ok src → parse src = .error (.error e) →
        stop = .failure (.source u.source e) ∧
          (BuildFailure.source u.source e).message = u.source ++ utf8 ": " ++ e.message := by
  obtain ⟨hdir, hnodup⟩ := of_load_eq_ok hload
  have hfull := isFull_of_mem_units hdir
  have hrun := run_buildUnits_of_sourceFails hi hbefore rfl hfails
  have hbuild : (m.build force).run fs = (stop.outcome results, gs) := by
    rw [run_build, hlock]
    simp only [hrun]
  have hunits := unitsRun_buildUnits hfull force lock fs
  rw [hrun] at hunits
  have hresults : results.map BuildResult.unit = m.units.take i := by
    have hfirst : UnitsRun force lock (m.units.take i) fs _ :=
      unitsRun_buildUnits (fun v hv => hfull v (List.mem_of_mem_take hv)) force lock fs
    rw [hbefore] at hfirst
    exact hfirst.results_unit rfl
  have hlength : i < m.units.length := (List.getElem?_eq_some_iff.1 hi).1
  refine ⟨?_, ?_, fun f => hfails.eq_fault_iff, ?_, hresults, ?_, hunits.changes_assembled hfull,
    ?_, ?_⟩
  · rintro failure rfl
    exact hbuild
  · rintro f rfl
    exact hbuild
  · rw [← List.length_map (f := BuildResult.unit), hresults, List.length_take]
    exact Nat.min_eq_left hlength.le
  · intro c
    exact (hunits.changes hfull).holds_iff
      (segments_not_mem_outputPlaces hfull (isFull_lockPath hdir) hlockPath)
  · intro j result hresult hskipped
    have hresult' : ((buildUnits force lock m.units).run fs).1.results[j]? = some result := by
      rwa [hrun]
    have hassembles := exists_assembles_of_not_skipped hfull hnodup hresult' hskipped
    rwa [hrun] at hassembles
  · intro src e hread hparse
    have hassembled := hfails.assembled_eq hread
    rw [assembled, hparse] at hassembled
    exact ⟨(Except.error.inj hassembled).symm, rfl⟩

/-- A project of two units, the first of which is assembled; the source of the second is given. -/
def pairFiles (second : Bytes) : FileSystem where
  entries :=
    [ ([utf8 "p"], .directory), ([utf8 "p", utf8 "a"], .file emptySource),
      ([utf8 "p", utf8 "b"], .file second),
      ([utf8 "p", Manifest.fileName], .file
        [ utf8 "[[unit]]\n", utf8 "source = \"a\"\n", utf8 "output = \"x\"\n",
          utf8 "[[unit]]\n", utf8 "source = \"b\"\n", utf8 "output = \"y\"\n" ].flatten) ]
  working := []

/-- The manifest of the project. -/
def pairManifest : Manifest where
  name := []
  outDir := utf8 "build"
  entries := [⟨utf8 "a", utf8 "x"⟩, ⟨utf8 "b", utf8 "y"⟩]
  verbosity := 0
  logFile := []
  dir := utf8 "/p"

/-- A project whose second unit has an error. -/
def brokenFiles : FileSystem :=
  pairFiles (utf8 ".format 0\n")

theorem build_of_sourceFails_brokenFiles :
    ((Manifest.load (utf8 "/p")).run brokenFiles).1 = .ok pairManifest ∧
      ∃ result e src bin gs, (pairManifest.build false).run brokenFiles =
          (.ok ⟨[result], some (.source (utf8 "/p/b") e)⟩, gs) ∧
        Assembles src bin ∧ gs.read (utf8 "/p/build/x") = .ok bin := by
  have hload : ((Manifest.load (utf8 "/p")).run brokenFiles).1 = .ok pairManifest := by
    decide +kernel
  have hlock : lockIn brokenFiles pairManifest.lockPath = .ok none := by
    decide +kernel
  -- what the first unit leaves behind, evaluated once
  have hfirst : ((buildUnits false none (pairManifest.units.take 1)).run brokenFiles).1.stop.isNone =
        true ∧
      ((buildUnits false none (pairManifest.units.take 1)).run brokenFiles).1.results.map
        BuildResult.skipped = [false] ∧
      ((buildUnits false none (pairManifest.units.take 1)).run brokenFiles).2.read (utf8 "/p/b") =
        .ok (utf8 ".format 0\n") := by
    decide +kernel
  rcases hbefore : (buildUnits false none (pairManifest.units.take 1)).run brokenFiles with
    ⟨⟨results, records, stop⟩, gs⟩
  rw [hbefore, Option.isNone_iff_eq_none] at hfirst
  obtain ⟨rfl, hskipped, hread⟩ := hfirst
  obtain ⟨e, hparse⟩ : ∃ e, parse (utf8 ".format 0\n") = .error (.error e) :=
    ⟨_, by rfl⟩
  have hfails : SourceFails false ⟨utf8 "/p/b", utf8 "/p/build/y"⟩ none gs
      (.failure (.source (utf8 "/p/b") e)) := by
    refine .unassembled hread (.inr (by simp)) ?_
    rw [assembled, hparse]
  obtain ⟨hrun, -, -, hlength, hunits, -, -, hassembles, -⟩ :=
    Manifest.build_of_sourceFails hload (by decide +kernel) hlock (by decide +kernel) hbefore hfails
  obtain ⟨result, rfl⟩ := List.length_eq_one_iff.1 hlength
  have htake : pairManifest.units.take 1 = [⟨utf8 "/p/a", utf8 "/p/build/x"⟩] := by
    decide +kernel
  have hunit : result.unit = ⟨utf8 "/p/a", utf8 "/p/build/x"⟩ :=
    List.singleton_inj.1 (hunits.trans htake)
  obtain ⟨src, bin, -, hbin, hout⟩ := hassembles 0 result rfl (List.singleton_inj.1 hskipped)
  rw [hunit] at hout
  exact ⟨hload, result, e, src, bin, gs, hrun _ rfl, hbin, hout⟩

/-- A project whose second unit has a constant that is neither a string nor a number. -/
def faultyFiles : FileSystem :=
  pairFiles (utf8 ".version 5.1 .function m .constant k foo")

/-- The second unit is the first that cannot be assembled, but the build does not return one result
and a failure: it returns nothing. -/
theorem not_returns_faultyFiles :
    ((Manifest.load (utf8 "/p")).run faultyFiles).1 = .ok pairManifest ∧
      (∀ v ∈ pairManifest.units, pairManifest.lockPath ≠ v.output) ∧
      lockIn faultyFiles pairManifest.lockPath = .ok none ∧
      pairManifest.units[1]? = some ⟨utf8 "/p/b", utf8 "/p/build/y"⟩ ∧
      ((buildUnits false none (pairManifest.units.take 1)).run faultyFiles).1.stop.isNone = true ∧
      (∃ stop, SourceFails false ⟨utf8 "/p/b", utf8 "/p/build/y"⟩ none
        (filesBefore false none pairManifest.units 1 faultyFiles) stop) ∧
      ∀ outcome, ((pairManifest.build false).run faultyFiles).1 ≠ .ok outcome := by
  obtain ⟨hstop, hread, hbuild⟩ :
      ((buildUnits false none (pairManifest.units.take 1)).run faultyFiles).1.stop.isNone = true ∧
        (filesBefore false none pairManifest.units 1 faultyFiles).read (utf8 "/p/b") =
          .ok (utf8 ".version 5.1 .function m .constant k foo") ∧
        ((pairManifest.build false).run faultyFiles).1 = .error ⟨⟨37, 1, 38⟩, utf8 "foo"⟩ := by
    decide +kernel
  have hparse : parse (utf8 ".version 5.1 .function m .constant k foo") =
      .error (.fault ⟨⟨37, 1, 38⟩, utf8 "foo"⟩) := by
    decide +kernel
  have hfails : SourceFails false ⟨utf8 "/p/b", utf8 "/p/build/y"⟩ none
      (filesBefore false none pairManifest.units 1 faultyFiles) _ :=
    .unassembled hread (.inr (by simp)) (assembled_eq_fault_iff.2 hparse)
  refine ⟨by decide +kernel, by decide +kernel, by decide +kernel, by decide +kernel, hstop,
    ⟨_, hfails⟩, fun outcome houtcome => ?_⟩
  cases hbuild.symm.trans houtcome

end LuaAssembly
