import Mathlib
import LuaAssembly.Proofs.Chunk.Stored
import LuaAssembly.Proofs.Source.Outline

/-!
# Assembling the listing of a chunk

The listing of a chunk is source for the chunk.  It is accepted and describes the same chunk, in
which only constants that are not numbers may differ: they are all written as the same word, and
what a constant holds besides its number or its string is not written at all.
-/
namespace LuaAssembly

/-- A draft is finished when nothing is missing and the header is valid. -/
theorem Draft.finish_eq_ok_iff {d : Draft} {c : Chunk} :
    d.finish = .ok c ↔
      d.header.finish = .ok c.header ∧ d.functions ≠ [] ∧ c.header.validate = .ok () ∧
        d.tree.traverse FunctionDraft.finish = .ok c.main := by
  have hempty : d.functions.isEmpty = false ↔ d.functions ≠ [] := by
    cases d.functions <;> simp
  have hrest : ∀ header : Header, d.header.finish = .ok header → d.functions.isEmpty = false →
      d.finish = (header.validate.mapError Cause.invalidHeader).bind fun _ =>
        (d.tree.traverse FunctionDraft.finish).map (Chunk.mk header) := by
    intro header hheader hne
    rw [Draft.finish, hheader, hne]
    dsimp only [Bind.bind, Except.bind]
    cases header.validate with
    | error problem => rfl
    | ok _ => cases d.tree.traverse FunctionDraft.finish <;> rfl
  constructor
  · intro h
    -- Each thing that is missing stops the draft from being finished.
    cases hheader : d.header.finish with
    | error cause => rw [Draft.finish, hheader] at h; cases h
    | ok header =>
    cases hne : d.functions.isEmpty with
    | true => rw [Draft.finish, hheader, hne] at h; cases h
    | false =>
    rw [hrest header hheader hne] at h
    cases hvalid : header.validate with
    | error problem => rw [hvalid] at h; cases h
    | ok _ =>
    cases htree : d.tree.traverse FunctionDraft.finish with
    | error cause => rw [hvalid, htree] at h; cases h
    | ok main =>
    rw [hvalid, htree] at h
    cases h
    exact ⟨rfl, hempty.1 hne, hvalid, rfl⟩
  · rintro ⟨hheader, hne, hvalid, htree⟩
    rw [hrest c.header hheader (hempty.2 hne), hvalid, htree]
    rfl

namespace Chunk

/-- The chunk that the listing of a chunk describes, if all of its code is instructions. -/
def reread (c : Chunk) : Chunk :=
  ⟨c.header, c.main.map Prototype.reread⟩

/-- The chunk that the listing of a chunk describes, whatever its code is. -/
def relisted (c : Chunk) : Chunk :=
  ⟨c.header, c.main.map fun p => p.listed.reread⟩

/-- The listing of a chunk is accepted when the integers in it are in range, and then it describes
the chunk as it is listed. -/
theorem parse_listing?_iff {c : Chunk} (hheader : c.header.validate = .ok ())
    (hmain : c.main.Every fun p _ => p.Encodable) :
    ∃ text, c.listing? = some text ∧
      ∀ c', parse text = .ok c' ↔ (c.main.Every fun p _ => p.InRange) ∧ c' = c.relisted := by
  obtain ⟨o, ho⟩ :=
    (Header.usable_of_problem? ((Header.problem?_eq_none_iff_validate _).2 hheader)).order
  obtain ⟨entries, d, hwalk, hdesc, hd, hne, htree⟩ :=
    describes_main hmain (Describes.headerDraft c.header o)
  have hfinish : d.finish = .ok c.relisted := by
    refine Draft.finish_eq_ok_iff.2 ⟨?_, hne, hheader, htree⟩
    rw [hd]
    exact Describes.headerDraft_finish ho
  refine ⟨Listing.header c.header ++ entries.flatMap functionText, ?_, ?_⟩
  · rw [listing?, hmain.isAbsent, if_neg Bool.false_ne_true, hwalk]
    rfl
  · intro c'
    rw [((Describes.header ho).iff.append hdesc).parse_eq_ok_iff, hfinish, true_and,
      Except.ok.injEq, eq_comm]

/-- The listing of a chunk is accepted and describes the chunk. -/
theorem parse_listing?_reread {c : Chunk} (hheader : c.header.validate = .ok ())
    (hmain : c.main.Every fun p _ => p.Listable) :
    ∃ text, c.listing? = some text ∧ parse text = .ok c.reread := by
  obtain ⟨text, htext, hparse⟩ :=
    parse_listing?_iff hheader (hmain.imp fun _ _ hp => hp.encodable)
  refine ⟨text, htext, (hparse _).2 ⟨hmain.imp fun _ _ hp => hp.inRange, ?_⟩⟩
  rw [reread, relisted, hmain.map_congr fun p _ hp => ?_]
  rw [Prototype.listed_eq_self_iff.2 hp.code]

end Chunk

/-! ## Exact listings -/

/-- Parsing undoes listing: for a chunk with a valid header and instructions, integers, upvalues
and constants that source can express, in a tree of functions of any shape. -/
theorem Chunk.parse_listing (c : Chunk) (hheader : c.header.validate = .ok ())
    (hmain : c.main.Every fun p _ => p.Listable ∧ ∀ k ∈ p.constants, k.IsExact) :
    ∃ text, c.listing? = some text ∧ parse text = .ok c := by
  have hreread : c.reread = c := by
    have htree : c.main.map Prototype.reread = c.main := by
      refine hmain.map_eq_self ?_
      rintro p - ⟨-, hp⟩
      have hconstants : p.constants.map Constant.reread = p.constants :=
        (List.map_congr_left fun k hk => (hp k hk).reread_eq).trans (List.map_id' _)
      rw [Prototype.reread, hconstants]
    rw [Chunk.reread, htree]
  obtain ⟨text, hlisting, hparse⟩ :=
    c.parse_listing?_reread hheader (hmain.imp fun _ _ h => h.1)
  exact ⟨text, hlisting, by rw [hparse, hreread]⟩

/-- A chunk in which a function that uses a captured variable is nested in the main function. -/
def counterChunk : Chunk where
  header := ⟨0, 0, 4, 8, 4, 8, false⟩
  main := .node
    { source := utf8 "@counter.lua", lineDefined := 0, lastLineDefined := 0, numParams := 0,
      isVararg := 2, maxStackSize := 2, code := [0x00000001, 0x00000064, 0x0080001E],
      constants := [.ofNumber ⟨0x3FB999999999999A⟩, .ofNumber .nan, .ofString [0x0A, 0x22, 0xFF]],
      lines := [1, 2, -3], locals := [⟨utf8 "n", 1, 3⟩], upvalues := [] }
    [ .node
        { source := [], lineDefined := 2, lastLineDefined := 5, numParams := 0, isVararg := 0,
          maxStackSize := 1, code := [0x00000004, 0x7FFF4016, 0x0100001E],
          constants := [], lines := [], locals := [],
          upvalues := [⟨utf8 "n", 7, true⟩] }
        [] ]

theorem parse_listing_counterChunk :
    ∃ text, counterChunk.listing? = some text ∧ parse text = .ok counterChunk := by
  refine counterChunk.parse_listing (by decide) (.node (by decide +kernel) ?_)
  intro t ht
  rw [List.mem_singleton.1 ht]
  exact .node (by decide +kernel) (by simp)

end LuaAssembly
