import Mathlib
import LuaAssembly.Proofs.Bytes.Numeral
import LuaAssembly.Source.Draft

/-!
# Paths of generated names

A listing names a nested function by its place, `f0`, `f1` and so on.  `Located` says that a path
leads to a certain function of a draft.  A path keeps its meaning when functions are added, the
path of a nested function finds the function it is nested in, and after its declaration the path
leads to it, since no function nested at the same place has the same name.
-/
namespace LuaAssembly

/-! ## Segments -/

namespace Bytes

theorem split_of_not_mem {sep : UInt8} {bs : Bytes} (h : sep ∉ bs) : split sep bs = [bs] := by
  induction bs with
  | nil => rfl
  | cons b bs ih =>
    rw [List.mem_cons, not_or] at h
    rw [split, if_neg (Ne.symm h.1), ih h.2]

theorem split_append_cons (sep : UInt8) (xs ys : Bytes) :
    split sep (xs ++ sep :: ys) = split sep xs ++ split sep ys := by
  induction xs with
  | nil => simp [split]
  | cons x xs ih =>
    rw [List.cons_append, split, split, ih]
    split_ifs
    · rfl
    · cases hxs : split sep xs with
      | nil => exact absurd hxs (split_ne_nil sep xs)
      | cons piece pieces => rfl

theorem afterLast_append_cons {sep : UInt8} (xs : Bytes) {ys : Bytes} (h : sep ∉ ys) :
    afterLast sep (xs ++ sep :: ys) = ys := by
  rw [afterLast, List.reverse_append, List.reverse_cons, List.append_assoc,
    List.takeWhile_append_of_pos]
  · simp
  · intro b hb
    rw [List.mem_reverse] at hb
    simp only [decide_eq_true_eq]
    rintro rfl
    exact h hb

end Bytes

/-- The last segment of the path of the function at place `k`. -/
def placeName (k : Nat) : Bytes :=
  utf8 "f" ++ Numeral.ofNat k

theorem placeName_ne_nil (k : Nat) : placeName k ≠ [] := by
  rw [placeName, show utf8 "f" = [0x66] by decide]
  simp

theorem slash_not_mem_placeName (k : Nat) : 0x2F ∉ placeName k := by
  rw [placeName, show utf8 "f" = [0x66] by decide, List.singleton_append, List.mem_cons]
  rintro (h | h)
  · cases h
  · exact absurd ((Numeral.ofNat_spec k).1 _ h) (by decide)

theorem placeName_injective : Function.Injective placeName := by
  intro j k h
  exact Numeral.ofNat_injective (List.append_cancel_left h)

theorem childPath_eq (path : Bytes) (k : Nat) :
    FunctionTree.childPath path k = path ++ 0x2F :: placeName k := by
  rw [FunctionTree.childPath, placeName, show utf8 "/f" = 0x2F :: utf8 "f" by decide,
    List.append_assoc, List.cons_append]

theorem split_childPath (path : Bytes) (k : Nat) :
    (FunctionTree.childPath path k).split 0x2F = path.split 0x2F ++ [placeName k] := by
  rw [childPath_eq, Bytes.split_append_cons,
    Bytes.split_of_not_mem (slash_not_mem_placeName k)]

theorem afterLast_childPath (path : Bytes) (k : Nat) :
    (FunctionTree.childPath path k).afterLast 0x2F = placeName k := by
  rw [childPath_eq, Bytes.afterLast_append_cons path (slash_not_mem_placeName k)]

/-! ## Following paths -/

namespace Draft

theorem child?_append {fs : List FunctionDraft} {i j : Nat} {segment : Bytes}
    (h : child? fs i segment = some j) (gs : List FunctionDraft) :
    child? (fs ++ gs) i segment = some j := by
  rw [child?, List.findIdx?_append, ← child?, h]
  rfl

theorem follow_append {fs : List FunctionDraft} {i j : Nat} {segments : List Bytes}
    (h : follow fs i segments = .ok j) (gs : List FunctionDraft) :
    follow (fs ++ gs) i segments = .ok j := by
  induction segments generalizing i with
  | nil => exact h
  | cons segment segments ih =>
    rw [follow] at h ⊢
    split at h
    · rw [child?_append ‹_›]
      exact ih h
    · cases h

theorem follow_snoc {fs : List FunctionDraft} {i j : Nat} {segments : List Bytes}
    (h : follow fs i segments = .ok j) (segment : Bytes) :
    follow fs i (segments ++ [segment]) = follow fs j [segment] := by
  induction segments generalizing i with
  | nil =>
    cases h
    rfl
  | cons s segments ih =>
    rw [follow] at h
    rw [List.cons_append, follow]
    split at h
    · exact ih h
    · cases h

end Draft

/-- The path leads to function number `i`. -/
structure Located (fs : List FunctionDraft) (path : Bytes) (i : Nat) : Prop where
  main : ∃ f rest, fs = f :: rest ∧ f.name = mainPath
  /-- The segments of the path lead from the main function to the function. -/
  segments : ∃ segments, path.split 0x2F = mainPath :: segments ∧ [] ∉ segments ∧
    Draft.follow fs 0 segments = .ok i

namespace Located

variable {fs : List FunctionDraft} {path : Bytes} {i : Nat}

theorem append (h : Located fs path i) (gs : List FunctionDraft) : Located (fs ++ gs) path i := by
  obtain ⟨⟨f, rest, rfl, hf⟩, segments, hsplit, hne, hfollow⟩ := h
  exact ⟨⟨f, rest ++ gs, rfl, hf⟩, segments, hsplit, hne, Draft.follow_append hfollow gs⟩

/-- The path of a nested function finds the function it is nested in. -/
theorem parentOf_childPath (h : Located fs path i) (k : Nat) :
    Draft.parentOf fs (FunctionTree.childPath path k) = .ok (some i) := by
  obtain ⟨⟨f, rest, rfl, hf⟩, segments, hsplit, hne, hfollow⟩ := h
  obtain ⟨s, ss, hss⟩ : ∃ s ss, segments ++ [placeName k] = s :: ss := by
    cases segments <;> exact ⟨_, _, rfl⟩
  have hempty : [] ∉ s :: ss := by
    rw [← hss]
    simpa [hne] using (placeName_ne_nil k).symm
  rw [Draft.parentOf, split_childPath, hsplit, List.cons_append, hss]
  simp only [hf, ne_eq, not_true_eq_false, if_false, if_neg hempty]
  rw [← hss, List.dropLast_concat, hfollow]

end Located

/-- Functions nested in function `i` have the names of the first `k` places. -/
def Fresh (fs : List FunctionDraft) (i k : Nat) : Prop :=
  ∀ f ∈ fs, f.parent = some i → ∃ j < k, f.lastSegment = placeName j

/-- Once it is declared, a nested function is found by its path. -/
theorem Located.childPath {fs : List FunctionDraft} {path : Bytes} {i k : Nat}
    (h : Located fs path i) (hfresh : Fresh fs i k) {f : FunctionDraft}
    (hname : f.name = FunctionTree.childPath path k) (hparent : f.parent = some i) :
    Located (fs ++ [f]) (FunctionTree.childPath path k) fs.length := by
  have happend := h.append [f]
  obtain ⟨segments, hsplit, hne, hfollow⟩ := happend.segments
  refine ⟨happend.main, segments ++ [placeName k], ?_, ?_, ?_⟩
  · rw [split_childPath, hsplit, List.cons_append]
  · simpa [hne] using (placeName_ne_nil k).symm
  · have hlast : f.lastSegment = placeName k := by
      rw [FunctionDraft.lastSegment, hname, afterLast_childPath]
    have hnone : Draft.child? fs i (placeName k) = none := by
      rw [Draft.child?, List.findIdx?_eq_none_iff]
      intro g hg
      rw [Bool.and_eq_false_iff, decide_eq_false_iff_not, decide_eq_false_iff_not]
      by_contra hboth
      rw [not_or, not_not, not_not] at hboth
      obtain ⟨j, hj, hsegment⟩ := hfresh g hg hboth.1
      rw [hboth.2] at hsegment
      exact hj.ne (placeName_injective hsegment).symm
    have hchild : Draft.child? (fs ++ [f]) i (placeName k) = some fs.length := by
      rw [Draft.child?, List.findIdx?_append, ← Draft.child?, hnone]
      simp [List.findIdx?_cons, hparent, hlast]
    rw [Draft.follow_snoc hfollow, Draft.follow, hchild]
    rfl

end LuaAssembly
