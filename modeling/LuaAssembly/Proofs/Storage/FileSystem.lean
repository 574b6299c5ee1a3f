import Mathlib
import LuaAssembly.Proofs.Storage.Path
import LuaAssembly.Storage.FileTask

/-!
# What file operations do

Two file systems are the same if the same things stand at the same places; a task cannot tell them
apart.  On full paths, reading, writing and creating directories are described by what stands at the
place of the path and on the way to it.  `Changes only` frames an operation: directories stay, and
files outside `only` are neither written nor removed.
-/
namespace LuaAssembly

namespace FileSystem

variable {fs gs hs : FileSystem} {place : Location} {names : List Bytes} {p c : Bytes}

/-! ## Entries -/

@[simp] theorem entryAt?_nil (fs : FileSystem) : fs.entryAt? [] = some .directory := rfl

theorem lookup_filter_ne {q : Location} (hq : q ≠ place) (entries : List (Location × FileEntry)) :
    (entries.filter fun e => e.1 ≠ place).lookup q = entries.lookup q := by
  induction entries with
  | nil => rfl
  | cons e entries ih =>
    by_cases he : e.1 = place
    · have hqe : (q == e.1) = false := by simpa [he] using hq
      rw [List.filter_cons_of_neg (by simpa using he), ih, List.lookup_cons, hqe]
    · rw [List.filter_cons_of_pos (by simpa using he), List.lookup_cons, List.lookup_cons, ih]

theorem entryAt?_put_self (fs : FileSystem) (hne : place ≠ []) (entry : FileEntry) :
    (fs.put place entry).entryAt? place = some entry := by
  simp [entryAt?, put, hne]

theorem entryAt?_put_of_ne (fs : FileSystem) {q : Location} (hq : q ≠ place) (entry : FileEntry) :
    (fs.put place entry).entryAt? q = fs.entryAt? q := by
  have hqe : (q == place) = false := by simpa using hq
  rw [entryAt?, entryAt?, put, List.lookup_cons, hqe, lookup_filter_ne hq]

/-! ## Same file systems -/

/-- The same things stand at the same places. -/
structure Same (fs gs : FileSystem) : Prop where
  entryAt?_eq : ∀ place, fs.entryAt? place = gs.entryAt? place
  working_eq : fs.working = gs.working

namespace Same

theorem refl (fs : FileSystem) : fs.Same fs :=
  ⟨fun _ => rfl, rfl⟩

theorem trans (h : fs.Same gs) (h' : gs.Same hs) : fs.Same hs :=
  ⟨fun place => (h.entryAt?_eq place).trans (h'.entryAt?_eq place),
    h.working_eq.trans h'.working_eq⟩

theorem origin_eq (h : fs.Same gs) (p : Bytes) : fs.origin p = gs.origin p := by
  rw [origin, origin, h.working_eq]

theorem walk_eq (h : fs.Same gs) (place : Location) (segments : List Bytes) :
    fs.walk place segments = gs.walk place segments := by
  induction segments generalizing place with
  | nil => rfl
  | cons s segments ih => simp only [walk, h.entryAt?_eq, ih]

theorem find_eq (h : fs.Same gs) (p : Bytes) : fs.find p = gs.find p := by
  simp only [find, h.walk_eq, h.origin_eq, h.entryAt?_eq]

theorem read_eq (h : fs.Same gs) (p : Bytes) : fs.read p = gs.read p := by
  rw [read, read, h.find_eq]

theorem exists?_eq (h : fs.Same gs) (p : Bytes) : fs.exists? p = gs.exists? p := by
  rw [exists?, exists?, h.find_eq]

theorem target_eq (h : fs.Same gs) (p : Bytes) : fs.target p = gs.target p := by
  simp only [target, h.walk_eq, h.origin_eq, h.entryAt?_eq]

theorem put (h : fs.Same gs) (place : Location) (entry : FileEntry) :
    (fs.put place entry).Same (gs.put place entry) := by
  refine ⟨fun q => ?_, h.working_eq⟩
  by_cases hq : q = place
  · subst hq
    rcases eq_or_ne q [] with rfl | hne
    · rfl
    · rw [entryAt?_put_self fs hne, entryAt?_put_self gs hne]
  · rw [entryAt?_put_of_ne fs hq, entryAt?_put_of_ne gs hq, h.entryAt?_eq]

end Same

/-- The same problem, or the same file system afterwards. -/
def SameOutcome : Except FileProblem FileSystem → Except FileProblem FileSystem → Prop
  | .ok fs, .ok gs => fs.Same gs
  | .error e, .error e' => e = e'
  | _, _ => False

namespace Same

theorem write (h : fs.Same gs) (p c : Bytes) : SameOutcome (fs.write p c) (gs.write p c) := by
  rw [FileSystem.write, FileSystem.write, h.target_eq]
  cases gs.target p with
  | ok place => exact h.put place _
  | error e => exact rfl

theorem touch (h : fs.Same gs) (p : Bytes) : SameOutcome (fs.touch p) (gs.touch p) := by
  rw [FileSystem.touch, FileSystem.touch, h.target_eq]
  cases gs.target p with
  | ok place =>
    simp only [h.entryAt?_eq]
    cases gs.entryAt? place with
    | none => exact h.put place _
    | some entry => exact h
  | error e => exact rfl

theorem makeAlong (h : fs.Same gs) (place : Location) (text : Bytes) (segments : List Bytes) :
    SameOutcome (fs.makeAlong place text segments) (gs.makeAlong place text segments) := by
  induction segments generalizing fs gs place text with
  | nil => exact h
  | cons s segments ih =>
    simp only [FileSystem.makeAlong, h.entryAt?_eq]
    split
    · exact ih h _ _
    · split
      · exact ih h _ _
      · split
        · exact ih h _ _
        · cases gs.entryAt? (place ++ [s]) with
          | none => exact ih (h.put _ _) _ _
          | some entry =>
            cases entry with
            | file contents => exact rfl
            | directory => exact ih h _ _

theorem makeDirectories (h : fs.Same gs) (p : Bytes) :
    SameOutcome (fs.makeDirectories p) (gs.makeDirectories p) := by
  rw [FileSystem.makeDirectories, FileSystem.makeDirectories, h.origin_eq]
  exact h.makeAlong _ _ _

end Same

end FileSystem

namespace FileTask

open FileSystem

variable {α β : Type} {fs gs : FileSystem}

theorem settle_of_sameOutcome {a b : Except FileProblem FileSystem} (h : fs.Same gs)
    (hab : SameOutcome a b) :
    (settle fs a).1 = (settle gs b).1 ∧ (settle fs a).2.Same (settle gs b).2 := by
  match a, b, hab with
  | .ok _, .ok _, hab => exact ⟨rfl, hab⟩
  | .error _, .error _, hab => exact ⟨congrArg Except.error hab, h⟩

/-- A task does the same on file systems that are the same. -/
theorem run_of_same (t : FileTask α) (h : fs.Same gs) :
    (t.run fs).1 = (t.run gs).1 ∧ (t.run fs).2.Same (t.run gs).2 := by
  induction t generalizing fs gs with
  | done a => exact ⟨rfl, h⟩
  | read path next ih =>
    rw [run, run, h.read_eq]
    exact ih _ h
  | write path contents next ih =>
    obtain ⟨hresult, hafter⟩ := settle_of_sameOutcome h (h.write path contents)
    simp only [run, hresult]
    exact ih _ hafter
  | touch path next ih =>
    obtain ⟨hresult, hafter⟩ := settle_of_sameOutcome h (h.touch path)
    simp only [run, hresult]
    exact ih _ hafter
  | makeDirectories path next ih =>
    obtain ⟨hresult, hafter⟩ := settle_of_sameOutcome h (h.makeDirectories path)
    simp only [run, hresult]
    exact ih _ hafter
  | «exists?» path next ih =>
    rw [run, run, h.exists?_eq]
    exact ih _ h
  | workingPath next ih =>
    rw [run, run, FileSystem.workingPath, FileSystem.workingPath, h.working_eq]
    exact ih _ h

end FileTask

namespace FileSystem

variable {fs gs hs : FileSystem} {place : Location} {names : List Bytes} {p c : Bytes}

/-! ## Following names -/

/-- All directories on the way to a place exist. -/
def Reaches (fs : FileSystem) (place : Location) : Prop :=
  ∀ front, front <+: place → front ≠ place → fs.entryAt? front = some .directory

theorem forall_prefix_cons_iff {P : Location → Prop} {s : Bytes} :
    (∀ front, front <+: s :: names → front ≠ s :: names → P front) ↔
      P [] ∧ ∀ front, front <+: names → front ≠ names → P (s :: front) := by
  constructor
  · intro h
    refine ⟨h [] List.nil_prefix (by simp), fun front hfront hne => ?_⟩
    exact h (s :: front) (List.cons_prefix_cons.2 ⟨rfl, hfront⟩) (by simpa using hne)
  · rintro ⟨hnil, hcons⟩ front hfront hne
    rcases List.prefix_cons_iff.1 hfront with rfl | ⟨tail, rfl, htail⟩
    · exact hnil
    · exact hcons tail htail (by simpa using hne)

/-- Following names from a place leads to the place that they name in it, if there are directories
on the way. -/
theorem walk_eq_ok_iff (h : ∀ s ∈ names, Path.IsName s) {place' : Location} :
    fs.walk place names = .ok place' ↔ place' = place ++ names ∧
      ∀ front, front <+: names → front ≠ names →
        fs.entryAt? (place ++ front) = some .directory := by
  induction names generalizing place with
  | nil => simp [walk, eq_comm]
  | cons s names ih =>
    rw [List.forall_mem_cons] at h
    rw [forall_prefix_cons_iff, List.append_nil, walk]
    cases hentry : fs.entryAt? place with
    | none => simp
    | some entry =>
      cases entry with
      | file contents => simp
      | directory =>
        simp only [if_neg (not_or.2 ⟨h.1.ne_nil, h.1.ne_here⟩), if_neg h.1.ne_up, ih h.2]
        simp

theorem walk_append_eq_ok_iff {place' : Location} {ss ss' : List Bytes} :
    fs.walk place (ss ++ ss') = .ok place' ↔
      ∃ q, fs.walk place ss = .ok q ∧ fs.walk q ss' = .ok place' := by
  induction ss generalizing place with
  | nil => simp [walk]
  | cons s ss ih =>
    rw [List.cons_append, walk, walk]
    cases fs.entryAt? place with
    | none => simp
    | some entry =>
      cases entry with
      | file contents => simp
      | directory =>
        simp only
        split_ifs
        · exact ih
        · exact ih
        · exact ih

theorem walk_empty_eq_ok_iff {place' : Location} :
    fs.walk place [[]] = .ok place' ↔ place' = place ∧ fs.entryAt? place = some .directory := by
  rw [walk]
  cases fs.entryAt? place with
  | none => simp
  | some entry =>
    cases entry with
    | file contents => simp
    | directory => simp [walk, eq_comm]

/-- Following a full path leads to the place that its names say. -/
theorem walk_split_eq_ok_iff (hp : Path.IsFull p) :
    fs.walk (fs.origin p) (p.split Path.separator) = .ok place ↔
      place = Path.segments p ∧ fs.Reaches place := by
  have hwalk : fs.walk (fs.origin p) (p.split Path.separator) = fs.walk [] (Path.segments p) := by
    rw [origin, if_pos hp.absolute]
    by_cases hne : Path.segments p = []
    · have hroot : p = [Path.separator] := by rw [← hp.ofNames_segments, hne]; rfl
      rw [hne, hroot]
      rfl
    · conv_lhs => rw [← hp.ofNames_segments, Path.split_ofNames hp.isName hne]
      simp [walk]
  rw [hwalk, walk_eq_ok_iff hp.isName, List.nil_append]
  constructor
  · rintro ⟨rfl, h⟩
    exact ⟨rfl, h⟩
  · rintro ⟨rfl, h⟩
    exact ⟨rfl, h⟩

/-! ## Reading -/

theorem find_eq_ok_iff (hp : Path.IsFull p) {entry : FileEntry} :
    fs.find p = .ok (place, entry) ↔
      place = Path.segments p ∧ fs.Reaches place ∧ fs.entryAt? place = some entry := by
  rw [find, if_neg hp.ne_nil]
  constructor
  · intro h
    split at h
    · cases h
    · next hwalk =>
      obtain ⟨rfl, hreach⟩ := (walk_split_eq_ok_iff hp).1 hwalk
      split at h
      · next hentry =>
        cases h
        exact ⟨rfl, hreach, hentry⟩
      · cases h
  · rintro ⟨hplace, hreach, hentry⟩
    simp only [(walk_split_eq_ok_iff hp).2 ⟨hplace, hreach⟩, hentry]

theorem exists?_iff (hp : Path.IsFull p) : fs.exists? p = true ↔
    fs.Reaches (Path.segments p) ∧ ∃ entry, fs.entryAt? (Path.segments p) = some entry := by
  rw [exists?]
  constructor
  · intro h
    split at h
    · next r hfind =>
      obtain ⟨place, entry⟩ := r
      obtain ⟨rfl, hreach, hentry⟩ := (find_eq_ok_iff hp).1 hfind
      exact ⟨hreach, entry, hentry⟩
    · cases h
  · rintro ⟨hreach, entry, hentry⟩
    rw [(find_eq_ok_iff hp).2 ⟨rfl, hreach, hentry⟩]

/-- A file with certain contents stands at the place of a path. -/
def Holds (fs : FileSystem) (p c : Bytes) : Prop :=
  fs.entryAt? (Path.segments p) = some (.file c)

instance (fs : FileSystem) (p c : Bytes) : Decidable (fs.Holds p c) :=
  inferInstanceAs (Decidable (_ = _))

theorem Holds.eq {c' : Bytes} (h : fs.Holds p c) (h' : fs.Holds p c') : c = c' := by
  rw [Holds, h] at h'
  simpa using h'

theorem read_eq_ok_iff (hp : Path.IsFull p) :
    fs.read p = .ok c ↔ fs.Reaches (Path.segments p) ∧ fs.Holds p c := by
  rw [read]
  constructor
  · intro h
    split at h
    · cases h
    · cases h
    · next place contents hfind =>
      obtain ⟨rfl, hreach, hentry⟩ := (find_eq_ok_iff hp).1 hfind
      cases h
      exact ⟨hreach, hentry⟩
  · rintro ⟨hreach, hholds⟩
    rw [(find_eq_ok_iff hp).2 ⟨rfl, hreach, hholds⟩]

/-! ## Writing -/

theorem reaches_concat_iff {s : Bytes} :
    fs.Reaches (place ++ [s]) ↔ fs.Reaches place ∧ fs.entryAt? place = some .directory := by
  constructor
  · intro h
    refine ⟨fun front hfront hne => ?_, h place (List.prefix_append _ _) (by simp)⟩
    refine h front (hfront.trans (List.prefix_append _ _)) ?_
    rintro rfl
    exact absurd hfront.length_le (by simp)
  · rintro ⟨hreach, hplace⟩ front hfront hne
    rcases List.prefix_concat_iff.1 hfront with rfl | hfront
    · exact absurd rfl hne
    · rcases eq_or_ne front place with rfl | hne
      · exact hplace
      · exact hreach front hfront hne

/-- The way to what stands under a name leads through directories, the last of which is the one that
has the name. -/
theorem walk_directory_eq_ok_iff {front : Location} (hfront : ∀ s ∈ front, Path.IsName s)
    (s : Bytes) :
    fs.walk [] ([] :: front ++ [[]]) = .ok place ↔ place = front ∧ fs.Reaches (front ++ [s]) := by
  have hstart : fs.walk [] ([] :: front) = fs.walk [] front := by simp [walk]
  rw [reaches_concat_iff, walk_append_eq_ok_iff, hstart]
  simp only [walk_eq_ok_iff hfront, walk_empty_eq_ok_iff, List.nil_append]
  constructor
  · rintro ⟨q, ⟨rfl, hreach⟩, rfl, hdir⟩
    exact ⟨rfl, hreach, hdir⟩
  · rintro ⟨rfl, hreach, hdir⟩
    exact ⟨_, ⟨rfl, hreach⟩, rfl, hdir⟩

/-- A file can be written where a path leads if there is no directory. -/
theorem target_eq_ok_iff (hp : Path.IsFull p) :
    fs.target p = .ok place ↔ place = Path.segments p ∧ fs.Reaches place ∧
      fs.entryAt? place ≠ some .directory := by
  rcases List.eq_nil_or_concat (Path.segments p) with hsegments | ⟨front, s, hsegments⟩
  · -- at the root there is a directory
    have hroot : p = [Path.separator] := by rw [← hp.ofNames_segments, hsegments]; rfl
    constructor
    · subst hroot
      intro h
      cases h
    · rintro ⟨rfl, -, hentry⟩
      simp [hsegments] at hentry
  · rw [List.concat_eq_append] at hsegments
    have hname : (∀ s ∈ front, Path.IsName s) ∧ Path.IsName s := by
      have := hp.isName
      rwa [hsegments, List.forall_mem_append, List.forall_mem_singleton] at this
    have hsplit : p.split Path.separator = [] :: front ++ [s] := by
      conv_lhs => rw [← hp.ofNames_segments, Path.split_ofNames hp.isName (by simp [hsegments])]
      rw [hsegments, List.cons_append]
    have hlast : ¬(s = [] ∨ s = Path.here ∨ s = Path.up) :=
      not_or.2 ⟨hname.2.ne_nil, not_or.2 ⟨hname.2.ne_here, hname.2.ne_up⟩⟩
    have hwalk : ∀ place, fs.walk (fs.origin p) ([] :: front ++ [[]]) = .ok place ↔
        place = front ∧ fs.Reaches (front ++ [s]) := by
      intro place
      rw [origin, if_pos hp.absolute, walk_directory_eq_ok_iff hname.1 s]
    rw [target, hsplit]
    simp only [List.getLast?_append, List.getLast?_singleton, Option.some_or, if_neg hp.ne_nil,
      List.dropLast_concat, hsegments]
    constructor
    · intro h
      split at h
      · cases h
      · next hw =>
        obtain ⟨rfl, hreach⟩ := (hwalk _).1 hw
        rw [if_neg hlast] at h
        split at h
        · cases h
        · next hentry =>
          cases h
          exact ⟨rfl, hreach, hentry⟩
    · rintro ⟨rfl, hreach, hentry⟩
      simp only [(hwalk _).2 ⟨rfl, hreach⟩, if_neg hlast]

/-! ## Changes -/

/-- Nothing but the files at the places of `only` was written: directories are still there, and
the other files are the same. -/
structure Changes (only : Set Location) (fs gs : FileSystem) : Prop where
  working_eq : gs.working = fs.working
  directory : ∀ q, fs.entryAt? q = some .directory → gs.entryAt? q = some .directory
  /-- Other files stay, and there are no new ones. -/
  file_iff : ∀ q, q ∉ only → ∀ c,
    gs.entryAt? q = some (.file c) ↔ fs.entryAt? q = some (.file c)

namespace Changes

variable {only only' : Set Location}

theorem refl (fs : FileSystem) : Changes only fs fs :=
  ⟨rfl, fun _ h => h, fun _ _ _ => Iff.rfl⟩

theorem trans (h : Changes only fs gs) (h' : Changes only gs hs) : Changes only fs hs where
  working_eq := h'.working_eq.trans h.working_eq
  directory q hq := h'.directory q (h.directory q hq)
  file_iff q hq c := (h'.file_iff q hq c).trans (h.file_iff q hq c)

theorem mono (h : Changes only fs gs) (hsub : only ⊆ only') : Changes only' fs gs :=
  ⟨h.working_eq, h.directory, fun q hq => h.file_iff q fun hmem => hq (hsub hmem)⟩

theorem reaches (h : Changes only fs gs) (hreach : fs.Reaches place) : gs.Reaches place :=
  fun front hfront hne => h.directory front (hreach front hfront hne)

theorem holds_iff (h : Changes only fs gs) (hp : Path.segments p ∉ only) :
    gs.Holds p c ↔ fs.Holds p c :=
  h.file_iff _ hp c

theorem read (h : Changes only fs gs) (hfull : Path.IsFull p) (hp : Path.segments p ∉ only)
    (hread : fs.read p = .ok c) : gs.read p = .ok c := by
  rw [read_eq_ok_iff hfull] at hread ⊢
  exact ⟨h.reaches hread.1, (h.holds_iff hp).2 hread.2⟩

end Changes

/-- Writing a file changes only that file. -/
theorem changes_put (hentry : fs.entryAt? place ≠ some .directory) (c : Bytes) :
    Changes {place} fs (fs.put place (.file c)) where
  working_eq := rfl
  directory q hq := by
    have hne : q ≠ place := by
      rintro rfl
      exact hentry hq
    rwa [entryAt?_put_of_ne fs hne]
  file_iff q hq c := by rw [entryAt?_put_of_ne fs (by simpa using hq)]

/-- Creating a directory changes no file. -/
theorem changes_put_directory (hentry : fs.entryAt? place = none) :
    Changes ∅ fs (fs.put place .directory) where
  working_eq := rfl
  directory q hq := by
    have hne : q ≠ place := by
      rintro rfl
      simp [hentry] at hq
    rwa [entryAt?_put_of_ne fs hne]
  file_iff q hq c := by
    rcases eq_or_ne q place with rfl | hne
    · have hplace : q ≠ [] := by
        rintro rfl
        simp at hentry
      simp [entryAt?_put_self fs hplace, hentry]
    · rw [entryAt?_put_of_ne fs hne]

/-! ## Creating directories -/

theorem makeAlong_of_isName {s : Bytes} (h : Path.IsName s) (fs : FileSystem) (place : Location)
    (text : Bytes) (rest : List Bytes) : ∃ path, fs.makeAlong place text (s :: rest) =
      match fs.entryAt? (place ++ [s]) with
      | some .directory => fs.makeAlong (place ++ [s]) path rest
      | some (.file _) => .error ⟨.makingDirectory, path, .notDirectory⟩
      | none => (fs.put (place ++ [s]) .directory).makeAlong (place ++ [s]) path rest := by
  rw [makeAlong, if_neg h.ne_nil, if_neg h.ne_here, if_neg h.ne_up]
  exact ⟨_, rfl⟩

/-- After directories were created along names, they are there, and no file has changed. -/
theorem makeAlong_spec (h : ∀ s ∈ names, Path.IsName s) {text : Bytes}
    (hplace : fs.entryAt? place = some .directory)
    (hmade : fs.makeAlong place text names = .ok gs) : Changes ∅ fs gs ∧
      ∀ front, front <+: names → gs.entryAt? (place ++ front) = some .directory := by
  induction names generalizing fs place text with
  | nil =>
    cases hmade
    refine ⟨Changes.refl _, fun front hfront => ?_⟩
    rw [List.prefix_nil.1 hfront, List.append_nil, hplace]
  | cons s names ih =>
    rw [List.forall_mem_cons] at h
    obtain ⟨path, heq⟩ := makeAlong_of_isName h.1 fs place text names
    rw [heq] at hmade
    -- either way the next directory is there, and the file system so far has changed no file
    have hstep : ∃ fs', Changes ∅ fs fs' ∧ fs'.entryAt? (place ++ [s]) = some .directory ∧
        fs'.makeAlong (place ++ [s]) path names = .ok gs := by
      split at hmade
      · next hentry => exact ⟨fs, Changes.refl fs, hentry, hmade⟩
      · cases hmade
      · next hentry =>
        exact ⟨_, changes_put_directory hentry, entryAt?_put_self fs (by simp) _, hmade⟩
    obtain ⟨fs', hchanges, hnext, hrest⟩ := hstep
    obtain ⟨hlater, hfronts⟩ := ih h.2 hnext hrest
    refine ⟨hchanges.trans hlater, fun front hfront => ?_⟩
    rcases List.prefix_cons_iff.1 hfront with rfl | ⟨tail, rfl, htail⟩
    · rw [List.append_nil]
      exact hlater.directory _ (hchanges.directory _ hplace)
    · simpa using hfronts tail htail

/-- Where all directories exist, nothing is created. -/
theorem makeAlong_eq_self (h : ∀ s ∈ names, Path.IsName s) {text : Bytes}
    (hfronts : ∀ front, front <+: names → fs.entryAt? (place ++ front) = some .directory) :
    fs.makeAlong place text names = .ok fs := by
  induction names generalizing place text with
  | nil => rfl
  | cons s names ih =>
    rw [List.forall_mem_cons] at h
    obtain ⟨path, heq⟩ := makeAlong_of_isName h.1 fs place text names
    rw [heq, hfronts [s] (by simp)]
    refine ih h.2 fun front hfront => ?_
    simpa using hfronts (s :: front) (by simpa using hfront)

theorem makeDirectories_ofNames (h : ∀ s ∈ names, Path.IsName s) (fs : FileSystem) :
    ∃ text, fs.makeDirectories (Path.ofNames names) = fs.makeAlong [] text names := by
  rw [makeDirectories, origin, if_pos (Path.isAbsolute_ofNames names)]
  by_cases hne : names = []
  · subst hne
    exact ⟨[], rfl⟩
  · rw [Path.split_ofNames h hne]
    exact ⟨_, by rw [makeAlong, if_pos rfl]⟩

theorem reaches_iff_dropLast (hne : place ≠ []) : fs.Reaches place ↔
    ∀ front, front <+: place.dropLast → fs.entryAt? front = some .directory := by
  obtain ⟨s, hs⟩ : ∃ s, place = place.dropLast ++ [s] :=
    ⟨_, (List.dropLast_append_getLast hne).symm⟩
  rw [hs, reaches_concat_iff, List.dropLast_concat]
  constructor
  · rintro ⟨hreach, hplace⟩ front hfront
    rcases eq_or_ne front place.dropLast with rfl | hne
    · exact hplace
    · exact hreach front hfront hne
  · intro h
    exact ⟨fun front hfront _ => h front hfront, h _ List.prefix_rfl⟩

end FileSystem

end LuaAssembly
