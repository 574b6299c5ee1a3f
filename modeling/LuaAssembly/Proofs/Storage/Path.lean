import Mathlib
import LuaAssembly.Proofs.Source.Path
import LuaAssembly.Storage.Path

/-!
# Full paths

A full path starts at the root and is normal.  Full paths and lists of names correspond to each
other: `segments` takes a full path apart and `ofNames` puts it together.  What is resolved against
a path that starts at the root is a full path, and the directory of a full path is the path of all
its names but the last.
-/
namespace LuaAssembly

namespace Bytes

theorem not_mem_of_mem_split {sep : UInt8} {bs s : Bytes} (h : s ∈ split sep bs) : sep ∉ s := by
  induction bs generalizing s with
  | nil =>
    rw [split, List.mem_singleton] at h
    simp [h]
  | cons b bs ih =>
    rw [split] at h
    split_ifs at h with hb
    · rcases List.mem_cons.1 h with rfl | h
      · simp
      · exact ih h
    · cases hbs : split sep bs with
      | nil => exact absurd hbs (split_ne_nil sep bs)
      | cons piece pieces =>
        simp only [hbs] at h ih
        rcases List.mem_cons.1 h with rfl | h
        · rw [List.mem_cons, not_or]
          exact ⟨Ne.symm hb, ih (List.mem_cons_self ..)⟩
        · exact ih (List.mem_cons_of_mem _ h)

/-- Splitting undoes joining if there is something to join. -/
theorem split_join {sep : UInt8} {pieces : List Bytes} (h : ∀ s ∈ pieces, sep ∉ s)
    (hne : pieces ≠ []) : split sep (join [sep] pieces) = pieces := by
  induction pieces with
  | nil => exact absurd rfl hne
  | cons piece pieces ih =>
    rw [List.forall_mem_cons] at h
    cases pieces with
    | nil => exact split_of_not_mem h.1
    | cons next pieces =>
      rw [join, List.append_assoc, List.singleton_append, split_append_cons,
        split_of_not_mem h.1, ih h.2 (List.cons_ne_nil _ _), List.singleton_append]
      · simp

end Bytes

namespace Path

/-- A segment that names something inside a directory. -/
structure IsName (s : Bytes) : Prop where
  ne_nil : s ≠ []
  /-- It does not stand for the directory itself. -/
  ne_here : s ≠ here
  /-- It does not stand for the directory above. -/
  ne_up : s ≠ up
  not_mem : separator ∉ s

/-- The path that follows names from the root. -/
def ofNames (names : List Bytes) : Bytes :=
  separator :: Bytes.join [separator] names

/-- The path starts at the root and is normal. -/
@[mk_iff]
structure IsFull (p : Bytes) : Prop where
  absolute : isAbsolute p = true
  clean_eq : clean p = p

instance (p : Bytes) : Decidable (IsFull p) :=
  decidable_of_iff _ (isFull_iff p).symm

/-! ## Normalisation -/

variable {p q base : Bytes} {names stack : List Bytes}

theorem isName_push {segment : Bytes} (h : ∀ s ∈ stack, IsName s) (hsep : separator ∉ segment) :
    ∀ s ∈ push true stack segment, IsName s := by
  intro s hs
  rw [push.eq_def] at hs
  by_cases hskip : segment = [] ∨ segment = here
  · rw [if_pos hskip] at hs
    exact h s hs
  rw [if_neg hskip] at hs
  by_cases hup : segment = up
  · rw [if_pos hup] at hs
    cases stack with
    | nil => simp at hs
    | cons top rest =>
      rw [List.forall_mem_cons] at h
      simp only [if_neg h.1.ne_up] at hs
      exact h.2 s hs
  · rw [if_neg hup] at hs
    rcases List.mem_cons.1 hs with rfl | hs
    · rw [not_or] at hskip
      exact ⟨hskip.1, hskip.2, hup, hsep⟩
    · exact h s hs

theorem isName_segments (h : isAbsolute p = true) : ∀ s ∈ segments p, IsName s := by
  have hfold : ∀ (ss stack : List Bytes), (∀ s ∈ ss, separator ∉ s) → (∀ s ∈ stack, IsName s) →
      ∀ s ∈ ss.foldl (push true) stack, IsName s := by
    intro ss
    induction ss with
    | nil => exact fun _ _ h => h
    | cons s ss ih =>
      intro stack hss hstack
      rw [List.forall_mem_cons] at hss
      exact ih _ hss.2 (isName_push hstack hss.1)
  intro s hs
  rw [segments, h, List.mem_reverse] at hs
  exact hfold _ [] (fun _ => Bytes.not_mem_of_mem_split) (by simp) s hs

theorem push_of_isName {rooted : Bool} {s : Bytes} (h : IsName s) :
    push rooted stack s = s :: stack := by
  rw [push.eq_def, if_neg (not_or.2 ⟨h.ne_nil, h.ne_here⟩), if_neg h.ne_up]

theorem foldl_push_of_isName {rooted : Bool} (h : ∀ s ∈ names, IsName s) :
    names.foldl (push rooted) stack = names.reverse ++ stack := by
  induction names generalizing stack with
  | nil => rfl
  | cons s names ih =>
    rw [List.forall_mem_cons] at h
    rw [List.foldl_cons, push_of_isName h.1, ih h.2]
    simp

@[simp] theorem isAbsolute_ofNames (names : List Bytes) : isAbsolute (ofNames names) = true := by
  simp [isAbsolute, ofNames]

theorem split_ofNames (h : ∀ s ∈ names, IsName s) (hne : names ≠ []) :
    (ofNames names).split separator = [] :: names := by
  rw [ofNames, Bytes.split, if_pos rfl, Bytes.split_join (fun s hs => (h s hs).not_mem) hne]

/-- Taking a path apart gives the names that it was made of. -/
theorem segments_ofNames (h : ∀ s ∈ names, IsName s) : segments (ofNames names) = names := by
  rcases eq_or_ne names [] with rfl | hne
  · decide
  · rw [segments, split_ofNames h hne, List.foldl_cons, push, if_pos (Or.inl rfl),
      foldl_push_of_isName h]
    simp

theorem clean_of_isAbsolute (h : isAbsolute p = true) : clean p = ofNames (segments p) := by
  rw [clean, if_pos h, ofNames]

/-! ## Full paths -/

theorem isFull_ofNames (h : ∀ s ∈ names, IsName s) : IsFull (ofNames names) := by
  refine ⟨isAbsolute_ofNames names, ?_⟩
  rw [clean_of_isAbsolute (isAbsolute_ofNames names), segments_ofNames h]

theorem isFull_clean (h : isAbsolute p = true) : IsFull (clean p) := by
  rw [clean_of_isAbsolute h]
  exact isFull_ofNames (isName_segments h)

namespace IsFull

theorem isName (h : IsFull p) : ∀ s ∈ segments p, IsName s :=
  isName_segments h.absolute

theorem ne_nil (h : IsFull p) : p ≠ [] := by
  rintro rfl
  exact absurd h.absolute (by simp [isAbsolute])

theorem ofNames_segments (h : IsFull p) : ofNames (segments p) = p := by
  rw [← clean_of_isAbsolute h.absolute, h.clean_eq]

/-- Full paths with the same names are the same. -/
theorem segments_inj (hp : IsFull p) (hq : IsFull q) : segments p = segments q ↔ p = q := by
  constructor
  · intro h
    rw [← hp.ofNames_segments, h, hq.ofNames_segments]
  · rintro rfl
    rfl

/-- Different full paths lead to different places. -/
theorem segments_not_mem_singleton (hp : IsFull p) (hq : IsFull q) (hne : p ≠ q) :
    segments p ∉ ({segments q} : Set (List Bytes)) := by
  rw [Set.mem_singleton_iff, hp.segments_inj hq]
  exact hne

end IsFull

theorem isAbsolute_append (h : isAbsolute p = true) (q : Bytes) : isAbsolute (p ++ q) = true := by
  cases p with
  | nil => simp [isAbsolute] at h
  | cons b p => simpa [isAbsolute] using h

theorem isFull_join (h : isAbsolute base = true) (p : Bytes) : IsFull (join base p) := by
  have hne : base ≠ [] := by
    rintro rfl
    simp [isAbsolute] at h
  rw [join, if_neg hne]
  exact isFull_clean (isAbsolute_append (isAbsolute_append h _) _)

theorem isFull_resolve (h : isAbsolute base = true) (p : Bytes) : IsFull (resolve base p) := by
  rw [resolve]
  split_ifs with hp
  · exact isFull_clean hp
  · exact isFull_join h p

/-! ## Where paths lead -/

/-- One segment further: a name leads down, and two points lead up, which is nowhere at the root. -/
def walk (names : List Bytes) (segment : Bytes) : List Bytes :=
  if segment = [] ∨ segment = here then names
  else if segment = up then names.dropLast
  else names ++ [segment]

/-- Where a path leads from a directory, both as names from the root. -/
def target (start : List Bytes) (path : Bytes) : List Bytes :=
  (path.split separator).foldl walk (if isAbsolute path then [] else start)

theorem reverse_push {segment : Bytes} (h : ∀ s ∈ stack, IsName s) :
    (push true stack segment).reverse = walk stack.reverse segment := by
  rw [push.eq_def, walk]
  by_cases hskip : segment = [] ∨ segment = here
  · rw [if_pos hskip, if_pos hskip]
  rw [if_neg hskip, if_neg hskip]
  by_cases hup : segment = up
  · rw [if_pos hup, if_pos hup]
    cases stack with
    | nil => rfl
    | cons top rest =>
      rw [List.forall_mem_cons] at h
      simp [h.1.ne_up]
  · rw [if_neg hup, if_neg hup, List.reverse_cons]

theorem reverse_foldl_push {ss : List Bytes} (hss : ∀ s ∈ ss, separator ∉ s)
    (h : ∀ s ∈ stack, IsName s) :
    (ss.foldl (push true) stack).reverse = ss.foldl walk stack.reverse := by
  induction ss generalizing stack with
  | nil => rfl
  | cons s ss ih =>
    rw [List.forall_mem_cons] at hss
    rw [List.foldl_cons, List.foldl_cons, ih hss.2 (isName_push h hss.1), reverse_push h]

/-- What is resolved is cleaned, and its segments are what the path leads to. -/
theorem exists_resolve_eq_clean (h : isAbsolute base = true) (p : Bytes) :
    ∃ q, isAbsolute q = true ∧ resolve base p = clean q ∧
      segments q = target (segments base) p := by
  have hsplit : ∀ s ∈ p.split separator, separator ∉ s := fun _ => Bytes.not_mem_of_mem_split
  rw [resolve, target]
  split_ifs with hp
  · refine ⟨p, hp, rfl, ?_⟩
    rw [segments, hp, reverse_foldl_push hsplit (by simp), List.reverse_nil]
  · have hne : base ≠ [] := by
      rintro rfl
      simp [isAbsolute] at h
    have habs := isAbsolute_append (isAbsolute_append h [separator]) p
    refine ⟨base ++ [separator] ++ p, habs, by rw [join, if_neg hne], ?_⟩
    -- The segments of the directory come first, and the path goes on from there.
    have hbase : (base.split separator).foldl (push true) [] = (segments base).reverse := by
      rw [segments, h, List.reverse_reverse]
    have hnames : ∀ s ∈ (segments base).reverse, IsName s := fun s hs =>
      isName_segments h s (List.mem_reverse.1 hs)
    rw [segments, habs, List.append_assoc, List.singleton_append, Bytes.split_append_cons,
      List.foldl_append, hbase, reverse_foldl_push hsplit hnames, List.reverse_reverse]

theorem resolve_eq_ofNames (h : isAbsolute base = true) (p : Bytes) :
    resolve base p = ofNames (target (segments base) p) := by
  obtain ⟨q, hq, hclean, htarget⟩ := exists_resolve_eq_clean h p
  rw [hclean, clean_of_isAbsolute hq, htarget]

theorem segments_resolve (h : isAbsolute base = true) (p : Bytes) :
    segments (resolve base p) = target (segments base) p := by
  obtain ⟨q, hq, hclean, htarget⟩ := exists_resolve_eq_clean h p
  rw [hclean, clean_of_isAbsolute hq, segments_ofNames (isName_segments hq), htarget]

/-! ## Directories -/

theorem ofNames_concat (front : List Bytes) (s : Bytes) :
    ofNames (front ++ [s]) = (if front = [] then [] else ofNames front) ++ separator :: s := by
  cases front with
  | nil => rfl
  | cons first front =>
    rw [if_neg (List.cons_ne_nil _ _)]
    induction front generalizing first with
    | nil => simp [ofNames, Bytes.join]
    | cons next front ih =>
      have := ih next
      simp only [ofNames, List.cons_append, List.cons.injEq, true_and] at this ⊢
      simp [Bytes.join, this]

/-- The directory of a full path follows all names but the last. -/
theorem directory_ofNames (h : ∀ s ∈ names, IsName s) :
    directory (ofNames names) = ofNames names.dropLast := by
  rcases List.eq_nil_or_concat names with rfl | ⟨front, s, rfl⟩
  · decide
  · rw [List.concat_eq_append] at h ⊢
    rw [List.forall_mem_append, List.forall_mem_singleton] at h
    rw [directory, ofNames_concat, Bytes.afterLast_append_cons _ h.2.not_mem,
      show ∀ (xs : Bytes), xs ++ separator :: s = (xs ++ [separator]) ++ s by simp,
      List.length_append, Nat.add_sub_cancel, List.take_left, List.dropLast_concat]
    split_ifs with hfront
    · subst hfront
      decide
    · have habs := isAbsolute_append (isAbsolute_ofNames front) [separator]
      rw [clean_of_isAbsolute habs, segments, Bytes.split_append_cons, List.foldl_append,
        split_ofNames h.1 hfront]
      simp [push, Bytes.split, foldl_push_of_isName h.1]

/-- Only the root is its own directory. -/
theorem directory_ofNames_eq_self_iff (h : ∀ s ∈ names, IsName s) :
    directory (ofNames names) = ofNames names ↔ names = [] := by
  have hfront : ∀ s ∈ names.dropLast, IsName s := fun s hs => h s (List.mem_of_mem_dropLast hs)
  rw [directory_ofNames h]
  constructor
  · intro heq
    have hnames := congrArg segments heq
    rw [segments_ofNames hfront, segments_ofNames h] at hnames
    have hlength := congrArg List.length hnames
    rw [List.length_dropLast] at hlength
    exact List.eq_nil_of_length_eq_zero (by omega)
  · rintro rfl
    rfl

/-- A name inside a directory. -/
theorem join_ofNames (h : ∀ s ∈ names, IsName s) {s : Bytes} (hs : IsName s) :
    join (ofNames names) s = ofNames (names ++ [s]) := by
  have hrelative : isAbsolute s = false := by
    rw [isAbsolute, decide_eq_false_iff_not]
    exact fun hhead => hs.not_mem (List.mem_of_mem_head? hhead)
  have hresolve := resolve_eq_ofNames (isAbsolute_ofNames names) s
  rw [resolve, hrelative, if_neg Bool.false_ne_true, segments_ofNames h, target, hrelative,
    Bytes.split_of_not_mem hs.not_mem] at hresolve
  rw [hresolve, if_neg Bool.false_ne_true, List.foldl_cons, List.foldl_nil, walk,
    if_neg (not_or.2 ⟨hs.ne_nil, hs.ne_here⟩), if_neg hs.ne_up]

/-- Every name takes a byte at least. -/
theorem length_le_ofNames (names : List Bytes) : names.length ≤ (ofNames names).length := by
  induction names using List.reverseRecOn with
  | nil => exact Nat.zero_le _
  | append_singleton front s ih =>
    rw [ofNames_concat, List.length_append, List.length_singleton, List.length_append,
      List.length_cons]
    split_ifs with hfront
    · simp [hfront]
    · omega

theorem IsFull.directory_eq (h : IsFull p) : directory p = ofNames (segments p).dropLast := by
  conv_lhs => rw [← h.ofNames_segments]
  exact directory_ofNames h.isName

end Path

end LuaAssembly
