import Mathlib
import LuaAssembly.Proofs.Project.Idle
import LuaAssembly.Proofs.Source.Program

/-!
# Incremental builds

A build without force trusts the records of an earlier build, perhaps of other units and with failed
builds in between.  A workspace is followed through any sequence of edits, changes of the unit list
and builds.  All the while the lock file holds only records that are sound: their digests are those
of a source and of what it assembles to.  So a unit that is skipped has the output that assembling
it would write, and building with and without force comes to the same.
-/
namespace LuaAssembly

open FileSystem FileTask

namespace Build

variable {force : Bool} {u : BuildUnit} {r : LockedUnit} {fs gs : FileSystem}
  {lock : Option Lock} {us : List BuildUnit}

/-! ## Outputs that are made from their sources -/

/-- A source assembles to a binary chunk. -/
def Assembles (src bin : Bytes) : Prop :=
  ∃ chunk, parse src = .ok chunk ∧ chunk.encode = .ok bin

theorem assembled_eq_ok_iff {src bin : Bytes} :
    assembled u src = .ok bin ↔ Assembles src bin := by
  rw [assembled]
  constructor
  · intro h
    split at h
    · cases h
    · cases h
    · next chunk hparse =>
      split at h
      · next hencode =>
        cases h
        exact ⟨chunk, hparse, hencode⟩
      · cases h
  · rintro ⟨chunk, hparse, hencode⟩
    rw [hparse]
    simp only [hencode]

/-- The text of a lock file is no source. -/
theorem not_assembles_toFile (rs : List LockedUnit) (bin : Bytes) :
    ¬Assembles (Lock.toFile ⟨rs⟩) bin := by
  rintro ⟨chunk, hparse, -⟩
  obtain ⟨ss, d, hopened, -⟩ := parse_eq_ok_iff_reaches.1 hparse
  cases rs with
  | nil => cases hopened
  | cons r rs =>
    -- the first token is the header of the first record and not the version
    obtain ⟨rest, hrest⟩ := Lock.exists_toFile_cons_eq r rs
    have hspells : Spells (utf8 "[[unit]]" ++ [0x0A]) [(.word, utf8 "[[unit]]")] :=
      .word (isWord_utf8 (by decide +kernel)) (by decide)
    obtain ⟨p, ts, hlex, hshape⟩ := hspells .start [] rest
    have htokens : tokenize (Lock.toFile ⟨r :: rs⟩) = ts.reverse ++ tokensFrom p .gap rest := by
      rw [hrest, tokenize, lex, hlex, lexFrom_eq, List.append_nil]
    obtain ⟨t, htoken, hliteral⟩ : ∃ t, ts.reverse = [t] ∧ t.literal = utf8 "[[unit]]" := by
      obtain ⟨t, htoken, ht⟩ := List.map_eq_singleton_iff.1 hshape
      exact ⟨t, htoken, congrArg Prod.snd ht⟩
    rw [htokens, htoken, List.singleton_append] at hopened
    generalize htext : t :: tokensFrom p .gap rest = text at hopened
    cases hopened with
    | intro hv hn hts =>
      rw [← (List.cons.inj htext).1, hliteral] at hv
      exact absurd hv (by decide +kernel)

/-- The output of a unit is what its source assembles to, and the record says so. -/
def Made (fs : FileSystem) (u : BuildUnit) (r : LockedUnit) : Prop :=
  ∃ src bin, fs.read u.source = .ok src ∧ fs.read u.output = .ok bin ∧ Assembles src bin ∧
    r = ⟨u.source, digest src, u.output, digest bin⟩

theorem Made.of_changes {only : Set Location} (hu : u.IsFull) (hchanges : Changes only fs gs)
    (hsource : Path.segments u.source ∉ only) (houtput : Path.segments u.output ∉ only)
    (h : Made fs u r) : Made gs u r := by
  obtain ⟨src, bin, hsrc, hbin, hrest⟩ := h
  exact ⟨src, bin, hchanges.read hu.source hsource hsrc, hchanges.read hu.output houtput hbin,
    hrest⟩

/-- The unit was made, or its record is one of the lock file, from which nothing is taken when the
build is forced. -/
def Accounted (force : Bool) (lock : Option Lock) (fs : FileSystem) (u : BuildUnit)
    (r : LockedUnit) : Prop :=
  Made fs u r ∨ (force = false ∧ ∃ l ∈ lock, r ∈ l.units)

theorem Accounted.of_changes {only : Set Location} (hu : u.IsFull) (hchanges : Changes only fs gs)
    (hsource : Path.segments u.source ∉ only) (houtput : Path.segments u.output ∉ only)
    (h : Accounted force lock fs u r) : Accounted force lock gs u r :=
  h.imp_left (Made.of_changes hu hchanges hsource houtput)

theorem UnitRun.accounted {result : BuildResult} (hu : u.IsFull) (hne : u.source ≠ u.output)
    (h : UnitRun force u (lock.bind (·.find? u.source)) fs (.ok (result, r), gs)) :
    Accounted force lock gs u r := by
  cases h with
  | skipped hforce hrecord hcurrent =>
    obtain ⟨l, hl, hfind⟩ := Option.bind_eq_some_iff.1 hrecord
    exact .inr ⟨hforce, l, hl, List.mem_of_find?_eq_some hfind⟩
  | rebuilt hread hassembled hinstall =>
    obtain ⟨hchanges, hout⟩ := changes_of_install_eq_ok hu.output hinstall
    have hsource := hu.source.segments_not_mem_singleton hu.output hne
    exact .inl ⟨_, _, hchanges.read hu.source hsource hread, hout,
      assembled_eq_ok_iff.1 hassembled, rfl⟩

theorem UnitsRun.accounted {progress : Progress} (hus : ∀ u ∈ us, u.IsFull) (hapart : Apart us)
    (h : UnitsRun force lock us fs (progress, gs)) :
    ∀ r ∈ progress.records, Accounted force lock gs r.unit r :=
  h.forall_records (P := Accounted force lock) Accounted.of_changes
    (fun hu hne hunit => hunit.accounted hu hne) hus hapart

/-! ## Skipping as good as assembling -/

/-- The digests of a record are those of a source and of what it assembles to; the two are among
`sources` and `outputs`. -/
def Sound (sources outputs : Set Bytes) (r : LockedUnit) : Prop :=
  ∃ src ∈ sources, ∃ bin ∈ outputs, Assembles src bin ∧ r.sourceDigest = digest src ∧
    r.outputDigest = digest bin

theorem Sound.mono {sources sources' outputs outputs' : Set Bytes} (h : Sound sources outputs r)
    (hsources : sources ⊆ sources') (houtputs : outputs ⊆ outputs') :
    Sound sources' outputs' r := by
  obtain ⟨src, hsrc, bin, hbin, hrest⟩ := h
  exact ⟨src, hsources hsrc, bin, houtputs hbin, hrest⟩

/-- What the units read and what stands where they write is among `sources` and `outputs`. -/
def Seen (sources outputs : Set Bytes) (us : List BuildUnit) (fs : FileSystem) : Prop :=
  ∀ u ∈ us, (∀ c, fs.Holds u.source c → c ∈ sources) ∧ ∀ c, fs.Holds u.output c → c ∈ outputs

variable {sources outputs : Set Bytes}

theorem Seen.tail (hus : ∀ v ∈ u :: us, v.IsFull) (hapart : Apart (u :: us))
    (hchanges : Changes {Path.segments u.output} fs gs) (h : Seen sources outputs (u :: us) fs) :
    Seen sources outputs us gs := by
  intro v hv
  have hv' := List.mem_cons_of_mem u hv
  have hu := hus u List.mem_cons_self
  have hsource := (hus v hv').source.segments_not_mem_singleton hu.output
    (hapart.source_ne v hv' u List.mem_cons_self)
  have houtput := (hus v hv').output.segments_not_mem_singleton hu.output
    (hapart.output_ne v hv).symm
  refine ⟨fun c hc => (h v hv').1 c ?_, fun c hc => (h v hv').2 c ?_⟩
  · exact (hchanges.holds_iff hsource).1 hc
  · exact (hchanges.holds_iff houtput).1 hc

/-- A current unit with a sound record is made, if no two sources and no two outputs share a
digest. -/
theorem Current.made (hu : u.IsFull) (hsources : Set.InjOn digest sources)
    (houtputs : Set.InjOn digest outputs) (hseen : Seen sources outputs (u :: us) fs)
    (hsound : Sound sources outputs r) (hsource : r.source = u.source) (h : Current fs u r) :
    Made fs u r := by
  obtain ⟨src, out, hsrc, hsrcDigest, hpath, hout, houtDigest⟩ := h
  obtain ⟨src', hsrc', bin', hbin', hassembles, hsrcDigest', hbinDigest'⟩ := hsound
  obtain ⟨hsourceSeen, houtputSeen⟩ := hseen u List.mem_cons_self
  have hsrcEq : src = src' := hsources
    (hsourceSeen src ((read_eq_ok_iff hu.source).1 hsrc).2) hsrc' (hsrcDigest ▸ hsrcDigest')
  have hbinEq : out = bin' := houtputs
    (houtputSeen out ((read_eq_ok_iff hu.output).1 hout).2) hbin' (houtDigest ▸ hbinDigest')
  subst hsrcEq hbinEq
  refine ⟨src, out, hsrc, hout, hassembles, ?_⟩
  rw [← hsource, ← hsrcDigest, ← hpath, ← houtDigest]

/-- To assemble a unit that is made gives the same record and changes nothing. -/
theorem Made.run_buildUnit (hu : u.IsFull) (h : Made fs u r) (record : Option LockedUnit) :
    ∃ result gs, (buildUnit true u record).run fs = (.ok (result, r), gs) ∧ fs.Same gs := by
  obtain ⟨src, bin, hsrc, hbin, hassembles, rfl⟩ := h
  obtain ⟨gs, hinstall, hsame⟩ := install_of_read_eq_ok hu.output hbin
  refine ⟨⟨u, false, bin.length⟩, gs, ?_, hsame⟩
  rw [run_buildUnit_of_not_current (.inl rfl), hsrc]
  simp only [run_rebuild, assembled_eq_ok_iff.2 hassembles, hinstall]

/-- A unit is built with and without force to the same end. -/
theorem buildUnit_same (hu : u.IsFull) (hsources : Set.InjOn digest sources)
    (houtputs : Set.InjOn digest outputs) (hseen : Seen sources outputs (u :: us) fs)
    (hsound : ∀ l ∈ lock, ∀ r ∈ l.units, Sound sources outputs r) (hsame : fs.Same gs) :
    (∃ stop fs' gs', fs'.Same gs' ∧
      (buildUnit false u (lock.bind (·.find? u.source))).run fs = (.error stop, fs') ∧
      (buildUnit true u (lock.bind (·.find? u.source))).run gs = (.error stop, gs')) ∨
    ∃ result result' r fs' gs', fs'.Same gs' ∧
      (buildUnit false u (lock.bind (·.find? u.source))).run fs = (.ok (result, r), fs') ∧
      (buildUnit true u (lock.bind (·.find? u.source))).run gs = (.ok (result', r), gs') := by
  set record := lock.bind (·.find? u.source) with hrecord
  -- on the two file systems, the forced build does the same
  obtain ⟨hresult, hafter⟩ := run_of_same (buildUnit true u record) hsame
  by_cases hskip : ∃ r ∈ record, Current fs u r
  · obtain ⟨r, hr, hcurrent⟩ := hskip
    obtain ⟨l, hl, hfind⟩ := Option.bind_eq_some_iff.1 (hrecord.symm.trans hr)
    have hsource : r.source = u.source := by simpa using List.find?_some hfind
    have hmade := hcurrent.made hu hsources houtputs hseen
      (hsound l hl r (List.mem_of_find?_eq_some hfind)) hsource
    obtain ⟨result, fs', hforced, hfs'⟩ := hmade.run_buildUnit hu record
    rw [hforced] at hresult hafter
    refine .inr ⟨⟨u, true, 0⟩, result, r, fs, _, hfs'.trans hafter, ?_, Prod.ext hresult.symm rfl⟩
    rw [hr]
    exact run_buildUnit_of_current hcurrent
  · have hplain : (buildUnit false u record).run fs = (buildUnit true u record).run fs := by
      rw [run_buildUnit_of_not_current (.inr fun r hr hcurrent => hskip ⟨r, hr, hcurrent⟩),
        run_buildUnit_of_not_current (.inl rfl)]
    rcases hforced : (buildUnit true u record).run fs with ⟨stop | ⟨result, r⟩, fs'⟩
    · rw [hforced] at hresult hafter
      exact .inl ⟨stop, fs', _, hafter, hplain.trans hforced, Prod.ext hresult.symm rfl⟩
    · rw [hforced] at hresult hafter
      exact .inr ⟨result, result, r, fs', _, hafter, hplain.trans hforced,
        Prod.ext hresult.symm rfl⟩

/-- So are units one after the other. -/
theorem buildUnits_same (hus : ∀ u ∈ us, u.IsFull) (hapart : Apart us)
    (hsources : Set.InjOn digest sources) (houtputs : Set.InjOn digest outputs)
    (hseen : Seen sources outputs us fs)
    (hsound : ∀ l ∈ lock, ∀ r ∈ l.units, Sound sources outputs r) (hsame : fs.Same gs) :
    ((buildUnits false lock us).run fs).1.stop = ((buildUnits true lock us).run gs).1.stop ∧
    ((buildUnits false lock us).run fs).1.records = ((buildUnits true lock us).run gs).1.records ∧
    ((buildUnits false lock us).run fs).2.Same ((buildUnits true lock us).run gs).2 := by
  induction us generalizing fs gs with
  | nil => exact ⟨rfl, rfl, hsame⟩
  | cons u us ih =>
    have hu := hus u List.mem_cons_self
    rw [run_buildUnits_cons, run_buildUnits_cons]
    rcases buildUnit_same hu hsources houtputs hseen hsound hsame with
      ⟨stop, fs', gs', hsame', hquick, hfull⟩ |
      ⟨result, result', r, fs', gs', hsame', hquick, hfull⟩
    · rw [hquick, hfull]
      exact ⟨rfl, rfl, hsame'⟩
    · have hchanges := unitRun_buildUnit hu false (lock.bind (·.find? u.source)) fs
      rw [hquick] at hchanges
      obtain ⟨hstop, hrecords, hafter⟩ := ih (fun v hv => hus v (List.mem_cons_of_mem _ hv))
        hapart.tail (hseen.tail hus hapart (hchanges.changes hu)) hsame'
      rw [hquick, hfull]
      exact ⟨hstop, congrArg (r :: ·) hrecords, hafter⟩

end Build

/-! ## Histories -/

/-- A project and all files, at one moment. -/
structure Workspace where
  manifest : Manifest
  files : FileSystem

/-- The outputs of a project are different, and none is a source or the lock file. -/
structure Manifest.Tidy (m : Manifest) : Prop where
  apart : Build.Apart m.units
  output_ne : ∀ u ∈ m.units, u.output ≠ m.lockPath

/-- The units of a tidy project do not write to the lock file. -/
theorem Manifest.Tidy.lockPath_not_mem {m : Manifest} (h : m.Tidy)
    (hdir : Path.isAbsolute m.dir = true) :
    Path.segments m.lockPath ∉ Build.outputPlaces m.units :=
  Build.segments_not_mem_outputPlaces (m.isFull_of_mem_units hdir) (m.isFull_lockPath hdir)
    fun u hu => (h.output_ne u hu).symm

namespace Workspace

/-- The workspace after a build. -/
def built (w : Workspace) (force : Bool) : Workspace where
  manifest := w.manifest
  files := ((w.manifest.build force).run w.files).2

/-- What can happen to a workspace. -/
inductive Step : Workspace → Workspace → Prop where
  /-- Files are written, removed or moved, but the lock file is not written. -/
  | edit {m : Manifest} {fs gs : FileSystem}
    (h : ∀ c, gs.Holds m.lockPath c → fs.Holds m.lockPath c) : Step ⟨m, fs⟩ ⟨m, gs⟩
  | relist {m : Manifest} {fs : FileSystem} (entries : List UnitEntry) :
    Step ⟨m, fs⟩ ⟨{ m with entries := entries }, fs⟩
  /-- The project is built, with or without success. -/
  | build (w : Workspace) (force : Bool) : Step w (w.built force)

/-- How a workspace has come about; `past` holds the states before it, the newest first.  It begins
without a lock file. -/
inductive History : Workspace → List Workspace → Prop where
  | start {w : Workspace} (hdir : Path.isAbsolute w.manifest.dir = true)
    (hlock : ∀ c, ¬w.files.Holds w.manifest.lockPath c) (htidy : w.manifest.Tidy) : History w []
  | step {w w' : Workspace} {past : List Workspace} (h : History w past) (hstep : Step w w')
    (htidy : w'.manifest.Tidy) : History w' (w :: past)

/-- What the sources of a project have held in some of the states. -/
def sources (states : List Workspace) : Set Bytes :=
  {c | ∃ w ∈ states, ∃ u ∈ w.manifest.units, w.files.Holds u.source c}

/-- What the outputs of a project have held in some of the states. -/
def outputs (states : List Workspace) : Set Bytes :=
  {c | ∃ w ∈ states, ∃ u ∈ w.manifest.units, w.files.Holds u.output c}

theorem sources_subset_cons (w : Workspace) (states : List Workspace) :
    sources states ⊆ sources (w :: states) := by
  rintro c ⟨v, hv, hc⟩
  exact ⟨v, List.mem_cons_of_mem _ hv, hc⟩

theorem outputs_subset_cons (w : Workspace) (states : List Workspace) :
    outputs states ⊆ outputs (w :: states) := by
  rintro c ⟨v, hv, hc⟩
  exact ⟨v, List.mem_cons_of_mem _ hv, hc⟩

theorem seen (w : Workspace) (past : List Workspace) :
    Build.Seen (sources (w :: past)) (outputs (w :: past)) w.manifest.units w.files :=
  fun u hu => ⟨fun _ hc => ⟨w, List.mem_cons_self, u, hu, hc⟩,
    fun _ hc => ⟨w, List.mem_cons_self, u, hu, hc⟩⟩

/-- If there is a lock file, it is the text of sound records. -/
def SoundLock (states : List Workspace) (w : Workspace) : Prop :=
  ∀ c, w.files.Holds w.manifest.lockPath c → ∃ rs : List LockedUnit, c = Lock.toFile ⟨rs⟩ ∧
    ∀ r ∈ rs, Build.Sound (sources states) (outputs states) r

/-- What is true of every workspace in a history. -/
structure Invariant (states : List Workspace) (w : Workspace) : Prop where
  dir : Path.isAbsolute w.manifest.dir = true
  tidy : w.manifest.Tidy
  lock : SoundLock states w

variable {states past : List Workspace} {w w' : Workspace}

theorem SoundLock.mono (h : SoundLock states w) (hpath : w'.manifest.lockPath = w.manifest.lockPath)
    (hholds : ∀ c, w'.files.Holds w.manifest.lockPath c → w.files.Holds w.manifest.lockPath c) :
    SoundLock (w' :: states) w' := by
  intro c hc
  rw [hpath] at hc
  obtain ⟨rs, rfl, hrs⟩ := h c (hholds c hc)
  exact ⟨rs, rfl, fun r hr =>
    (hrs r hr).mono (sources_subset_cons w' states) (outputs_subset_cons w' states)⟩

/-- The records that a build finds are sound. -/
theorem Invariant.sound_of_lockIn (h : Invariant states w) {lock : Option Lock}
    (hlock : Build.lockIn w.files w.manifest.lockPath = .ok lock) :
    ∀ l ∈ lock, ∀ r ∈ l.units, Build.Sound (sources states) (outputs states) r := by
  rintro l rfl
  obtain ⟨contents, hread, hfile⟩ := Build.exists_of_lockIn_eq_some hlock
  obtain ⟨-, hholds⟩ := (read_eq_ok_iff (w.manifest.isFull_lockPath h.dir)).1 hread
  obtain ⟨rs, rfl, hrs⟩ := h.lock contents hholds
  rw [Lock.ofFile?_toFile] at hfile
  split_ifs at hfile
  cases hfile
  exact hrs

/-- A build leaves a sound lock file, whether it fails or not. -/
theorem Invariant.soundLock_build (h : Invariant (w :: past) w) {force : Bool}
    {outcome : Except Fault BuildOutcome} {gs : FileSystem}
    (hrun : Build.BuildRun w.manifest force w.files (outcome, gs)) :
    SoundLock (⟨w.manifest, gs⟩ :: w :: past) ⟨w.manifest, gs⟩ := by
  have hfull := w.manifest.isFull_of_mem_units h.dir
  have hlockPath := w.manifest.isFull_lockPath h.dir
  have hlockPlace := h.tidy.lockPath_not_mem h.dir
  cases hrun with
  | unusable hlock => exact h.lock.mono rfl fun _ hc => hc
  | stopped hlock hunits hstop =>
    exact h.lock.mono rfl fun c => ((hunits.changes hfull).holds_iff hlockPlace).1
  | unwritable hlock hunits hdone hinstall =>
    have hchanges := changes_of_install_eq_error hlockPath hinstall
    exact h.lock.mono rfl fun c hc => ((hunits.changes hfull).holds_iff hlockPlace).1
      ((hchanges.holds_iff (Set.notMem_empty _)).1 hc)
  | @built lock progress fs' _ hlock hunits hdone hinstall =>
    obtain ⟨hchanges, hread⟩ := changes_of_install_eq_ok hlockPath hinstall
    intro c hc
    refine ⟨progress.records, hc.eq ((read_eq_ok_iff hlockPath).1 hread).2, fun r hr => ?_⟩
    have hr' : r.unit ∈ w.manifest.units := hunits.records_unit hdone ▸ List.mem_map_of_mem hr
    rcases hunits.accounted hfull h.tidy.apart r hr with
      ⟨src, bin, hsrc, hbin, hassembles, hrecord⟩ | ⟨-, l, hl, hmem⟩
    · -- the source was there before the build, and the output is there after it
      have hsource : w.files.Holds r.unit.source src :=
        ((hunits.changes hfull).holds_iff (Build.segments_not_mem_outputPlaces hfull
          (hfull _ hr').source (h.tidy.apart.source_ne _ hr'))).1
            ((read_eq_ok_iff (hfull _ hr').source).1 hsrc).2
      have houtput : gs.Holds r.unit.output bin :=
        (hchanges.holds_iff ((hfull _ hr').output.segments_not_mem_singleton hlockPath
          (h.tidy.output_ne _ hr'))).2 ((read_eq_ok_iff (hfull _ hr').output).1 hbin).2
      refine ⟨src, ⟨w, by simp, _, hr', hsource⟩, bin, ⟨_, List.mem_cons_self, _, hr', houtput⟩,
        hassembles, ?_, ?_⟩
      · rw [hrecord]
      · rw [hrecord]
    · exact (h.sound_of_lockIn hlock l hl r hmem).mono (sources_subset_cons _ _)
        (outputs_subset_cons _ _)

theorem Invariant.step (h : Invariant (w :: past) w) (hstep : Step w w')
    (htidy : w'.manifest.Tidy) : Invariant (w' :: w :: past) w' := by
  cases hstep with
  | edit hedit => exact ⟨h.dir, htidy, h.lock.mono rfl hedit⟩
  | relist entries => exact ⟨h.dir, htidy, h.lock.mono rfl fun _ hc => hc⟩
  | build w force =>
    exact ⟨h.dir, htidy, h.soundLock_build (Build.buildRun_build h.dir force _)⟩

theorem History.invariant (h : History w past) : Invariant (w :: past) w := by
  induction h with
  | start hdir hlock htidy => exact ⟨hdir, htidy, fun c hc => absurd hc (hlock c)⟩
  | step h hstep htidy ih => exact ih.step hstep htidy

/-! ## Building with and without force -/

/-- Whether it is forced or not, a build ends in the same way and leaves the same files. -/
theorem Invariant.build_same (h : Invariant (w :: past) w)
    (hsources : Set.InjOn Build.digest (sources (w :: past)))
    (houtputs : Set.InjOn Build.digest (outputs (w :: past))) :
    Build.ending w.manifest false w.files = Build.ending w.manifest true w.files ∧
      ((w.manifest.build false).run w.files).2.Same ((w.manifest.build true).run w.files).2 := by
  rw [Build.ending, Build.ending, Build.run_build, Build.run_build]
  cases hlock : Build.lockIn w.files w.manifest.lockPath with
  | error problem => exact ⟨rfl, Same.refl _⟩
  | ok lock =>
    obtain ⟨hstop, hrecords, hafter⟩ := Build.buildUnits_same
      (w.manifest.isFull_of_mem_units h.dir) h.tidy.apart hsources houtputs (seen w past)
      (h.sound_of_lockIn hlock) (Same.refl w.files)
    rcases hquick : (Build.buildUnits false lock w.manifest.units).run w.files with
      ⟨⟨results, records, stop⟩, fs'⟩
    rcases hfull : (Build.buildUnits true lock w.manifest.units).run w.files with
      ⟨⟨results', records', stop'⟩, gs'⟩
    simp only [hquick, hfull] at hstop hrecords hafter
    subst hstop hrecords
    cases stop with
    | some stop =>
      simp only [hquick, hfull]
      exact ⟨stop.map_outcome_congr results results', hafter⟩
    | none =>
      obtain ⟨hresult, hend⟩ := run_of_same
        (install w.manifest.lockPath (Lock.toFile ⟨records⟩)) hafter
      rcases hq : (install w.manifest.lockPath (Lock.toFile ⟨records⟩)).run fs' with ⟨x, fs''⟩
      rcases hf : (install w.manifest.lockPath (Lock.toFile ⟨records⟩)).run gs' with ⟨y, gs''⟩
      simp only [hq, hf] at hresult hend
      subst hresult
      simp only [hquick, hfull, hq, hf]
      cases x with
      | error problem => exact ⟨rfl, hend⟩
      | ok _ => exact ⟨rfl, hend⟩

/-- After a forced build without failure every output is what its source assembles to. -/
theorem Invariant.assembles_of_build (h : Invariant states w) {outcome : Except Fault BuildOutcome}
    {gs : FileSystem} (hrun : Build.BuildRun w.manifest true w.files (outcome, gs))
    (hending : outcome.map BuildOutcome.failure = .ok none) : ∀ u ∈ w.manifest.units, ∃ src bin,
      gs.read u.source = .ok src ∧ gs.read u.output = .ok bin ∧ Build.Assembles src bin := by
  have hfull := w.manifest.isFull_of_mem_units h.dir
  have hlockPath := w.manifest.isFull_lockPath h.dir
  cases hrun with
  | unusable hlock => cases hending
  | stopped hlock hunits hstop => exact absurd hending (Build.Stop.map_outcome_ne _ _)
  | unwritable hlock hunits hdone hinstall => cases hending
  | @built lock progress fs' _ hlock hunits hdone hinstall =>
    intro u hu
    obtain ⟨r, hr, rfl⟩ : ∃ r ∈ progress.records, r.unit = u := by
      rw [← hunits.records_unit hdone] at hu
      exact List.mem_map.1 hu
    obtain ⟨src, bin, hsrc, hbin, hassembles, -⟩ | ⟨hforce, -⟩ :=
      hunits.accounted hfull h.tidy.apart r hr
    · have hchanges := (changes_of_install_eq_ok hlockPath hinstall).1
      -- the source is not the lock file, since the text of that does not assemble
      have hsource : r.unit.source ≠ w.manifest.lockPath := by
        intro heq
        rw [heq] at hsrc
        obtain ⟨-, hholds⟩ := (read_eq_ok_iff hlockPath).1 hsrc
        obtain ⟨rs, rfl, -⟩ := h.lock src
          (((hunits.changes hfull).holds_iff (h.tidy.lockPath_not_mem h.dir)).1 hholds)
        exact Build.not_assembles_toFile rs bin hassembles
      have hsourcePlace := (hfull _ hu).source.segments_not_mem_singleton hlockPath hsource
      have houtputPlace := (hfull _ hu).output.segments_not_mem_singleton hlockPath
        (h.tidy.output_ne _ hu)
      exact ⟨src, bin, hchanges.read (hfull _ hu).source hsourcePlace hsrc,
        hchanges.read (hfull _ hu).output houtputPlace hbin, hassembles⟩
    · cases hforce

/-- In every workspace with a history, if no two sources and no two outputs in it had the same
digest: building with and without force ends in the same way, with the same fault, the same failure
or none, and leaves the same files in any case; without failure every output is then what its source
assembles to. -/
theorem build_eq_forced (h : History w past)
    (hsources : Set.InjOn Build.digest (sources (w :: past)))
    (houtputs : Set.InjOn Build.digest (outputs (w :: past))) :
    Build.ending w.manifest false w.files = Build.ending w.manifest true w.files ∧
      ((w.manifest.build false).run w.files).2.Same ((w.manifest.build true).run w.files).2 ∧
      (Build.ending w.manifest false w.files = .ok none →
        ∀ u ∈ w.manifest.units, ∃ src chunk bin,
          ((w.manifest.build false).run w.files).2.read u.source = .ok src ∧
            parse src = .ok chunk ∧ chunk.encode = .ok bin ∧
              ((w.manifest.build false).run w.files).2.read u.output = .ok bin) := by
  obtain ⟨hending, hsame⟩ := h.invariant.build_same hsources houtputs
  refine ⟨hending, hsame, fun hnone u hu => ?_⟩
  obtain ⟨src, bin, hsrc, hbin, chunk, hparse, hencode⟩ :=
    h.invariant.assembles_of_build (Build.buildRun_build h.invariant.dir true w.files)
      (hending.symm.trans hnone) u hu
  exact ⟨src, chunk, bin, (hsame.read_eq _).trans hsrc, hparse, hencode,
    (hsame.read_eq _).trans hbin⟩

/-- Building a tidy project again is idle, if its sources are different from each other and from the
lock file and its paths are valid UTF-8. -/
theorem idle_built {force : Bool} (hdir : Path.isAbsolute w.manifest.dir = true)
    (htidy : w.manifest.Tidy) (hnodup : (w.manifest.units.map BuildUnit.source).Nodup)
    (hsource : ∀ u ∈ w.manifest.units, u.source ≠ w.manifest.lockPath)
    (hvalid : ∀ u ∈ w.manifest.units,
      Utf8.isValid u.source = true ∧ Utf8.isValid u.output = true)
    (hbuild : Build.ending w.manifest force w.files = .ok none) :
    Build.Idle (w.built force).manifest (w.built force).files := by
  obtain ⟨rs, hrecords, hdigests, hread, hcurrent⟩ := Build.exists_records_of_build hdir hbuild
  exact (Build.idle_iff hdir htidy.apart.nodup hrecords hdigests hread).2
    ⟨hnodup, hvalid, hcurrent htidy.apart fun u hu => ⟨hsource u hu, htidy.output_ne u hu⟩⟩

/-- A project with one unit, before its first build. -/
def soloWorkspace : Workspace where
  manifest := { twinManifest with entries := [⟨utf8 "a", utf8 "x"⟩] }
  files := twinFiles

/-- After the first build of the project its unit is skipped, and the output is as good as if it
were not. -/
theorem build_eq_forced_soloWorkspace :
    History (soloWorkspace.built false) [soloWorkspace] ∧
      Set.InjOn Build.digest (sources [soloWorkspace.built false, soloWorkspace]) ∧
      Set.InjOn Build.digest (outputs [soloWorkspace.built false, soloWorkspace]) ∧
      Build.Idle (soloWorkspace.built false).manifest (soloWorkspace.built false).files ∧
      (((soloWorkspace.built false).manifest.build false).run
        (soloWorkspace.built false).files).2.Same
          (((soloWorkspace.built false).manifest.build true).run
            (soloWorkspace.built false).files).2 ∧
      ∀ u ∈ (soloWorkspace.built false).manifest.units, ∃ src chunk bin,
        (((soloWorkspace.built false).manifest.build false).run
          (soloWorkspace.built false).files).2.read u.source = .ok src ∧
          parse src = .ok chunk ∧ chunk.encode = .ok bin ∧
            (((soloWorkspace.built false).manifest.build false).run
              (soloWorkspace.built false).files).2.read u.output = .ok bin := by
  have hdir : Path.isAbsolute soloWorkspace.manifest.dir = true := by decide +kernel
  have hunits : soloWorkspace.manifest.units = [⟨utf8 "/p/a", utf8 "/p/build/x"⟩] := by
    decide +kernel
  have htidy : soloWorkspace.manifest.Tidy :=
    ⟨⟨by decide +kernel, by decide +kernel⟩, by decide +kernel⟩
  have hlock : soloWorkspace.files.entryAt? (Path.segments soloWorkspace.manifest.lockPath) =
      none := by
    decide +kernel
  have hhistory : History (soloWorkspace.built false) [soloWorkspace] :=
    .step (.start hdir (fun c hc => by simp [Holds, hlock] at hc) htidy) (.build _ false) htidy
  -- the source stays as it is, so it has held only one thing
  have hsources : (sources [soloWorkspace.built false, soloWorkspace]).Subsingleton := by
    have hstart : soloWorkspace.files.Holds (utf8 "/p/a") emptySource := by decide +kernel
    have hbuilt : (soloWorkspace.built false).files.Holds (utf8 "/p/a") emptySource := by
      decide +kernel
    have hall : ∀ c ∈ sources [soloWorkspace.built false, soloWorkspace], c = emptySource := by
      rintro c ⟨w, hw, u, hu, hc⟩
      simp only [List.mem_cons, List.not_mem_nil, or_false] at hw
      rcases hw with rfl | rfl
      · rw [show (soloWorkspace.built false).manifest.units = _ from hunits,
          List.mem_singleton] at hu
        subst hu
        exact hc.eq hbuilt
      · rw [hunits, List.mem_singleton] at hu
        subst hu
        exact hc.eq hstart
    intro c hc c' hc'
    rw [hall c hc, hall c' hc']
  -- the output is written once
  have houtputs : (outputs [soloWorkspace.built false, soloWorkspace]).Subsingleton := by
    have hstart : soloWorkspace.files.entryAt? (Path.segments (utf8 "/p/build/x")) = none := by
      decide +kernel
    have hall : ∀ c ∈ outputs [soloWorkspace.built false, soloWorkspace],
        (soloWorkspace.built false).files.Holds (utf8 "/p/build/x") c := by
      rintro c ⟨w, hw, u, hu, hc⟩
      simp only [List.mem_cons, List.not_mem_nil, or_false] at hw
      rcases hw with rfl | rfl
      · rw [show (soloWorkspace.built false).manifest.units = _ from hunits,
          List.mem_singleton] at hu
        subst hu
        exact hc
      · rw [hunits, List.mem_singleton] at hu
        subst hu
        simp [Holds, hstart] at hc
    intro c hc c' hc'
    exact (hall c hc).eq (hall c' hc')
  have hbuild : Build.ending soloWorkspace.manifest false soloWorkspace.files = .ok none := by
    decide +kernel
  have hidle : Build.Idle (soloWorkspace.built false).manifest (soloWorkspace.built false).files :=
    idle_built hdir htidy (by decide +kernel) (by decide +kernel) (by decide +kernel) hbuild
  obtain ⟨-, hsame, hmade⟩ := build_eq_forced hhistory (hsources.injOn _) (houtputs.injOn _)
  refine ⟨hhistory, hsources.injOn _, houtputs.injOn _, hidle, hsame, hmade ?_⟩
  rw [Build.ending, hidle.1]
  rfl

end Workspace

end LuaAssembly
