import Mathlib
import LuaAssembly.Proofs.Source.Program
import LuaAssembly.Proofs.Source.Restart
import LuaAssembly.Proofs.Source.Tiling

/-!
# Assembling a listing of code

A listing of code is source that can stand inside a function.  It is always accepted, and it adds
to the function the words that are listed, without those that no operation has the number of and
without the bits that their operations do not use.
-/
namespace LuaAssembly

/-! ## Text behind a line -/

/-- What is behind the end of a line is assembled as it is by itself. -/
theorem foldl_feed_append_line {front text : Bytes} {r r' : Reading Draft}
    (h : Describes text r r')
    (hfront : (tokenize front).foldl Assembly.feed Assembly.start = r) :
    (tokenize (front ++ 0x0A :: text)).foldl Assembly.feed Assembly.start = r' := by
  obtain ⟨shapes, hspells, hfeed⟩ := h
  have hshapes : ∀ p, (tokensFrom p .gap text).map Token.shape = shapes := by
    intro p
    rw [shapes_tokensFrom rfl p .start, ← tokenize_eq]
    exact hspells.shapes_lex
  rw [tokenize_eq, tokensFrom_append_line, List.foldl_append, ← tokenize_eq, hfront]
  exact hfeed _ (hshapes _)

/-! ## Code and success -/

/-- A function with other code is finished if the function is. -/
theorem FunctionDraft.exists_finish_code (f : FunctionDraft) (code : List Word) :
    (∃ p, { f with code := code }.finish = .ok p) ↔ ∃ p, f.finish = .ok p := by
  have hfinish : { f with code := code }.finish =
      f.finish.map fun p => { p with code := code } := by
    obtain ⟨name, parent, source, lineDefined, lastLineDefined, numParams, isVararg, maxStackSize,
      code, constants, lines, locals, upvalues⟩ := f
    cases source <;> cases lineDefined <;> cases lastLineDefined <;> cases numParams <;>
      cases isVararg <;> cases maxStackSize <;> rfl
  rw [hfinish]
  cases f.finish <;> simp [Except.map]

/-- Whether source is accepted does not depend on the code of the current function. -/
theorem Draft.exists_finish_code {d : Draft} {f : FunctionDraft} (hcurrent : d.current = some f)
    (code : List Word) (harena : Arena d.functions)
    (harena' : Arena { d with current := some { f with code := code } }.functions) :
    (∃ c, { d with current := some { f with code := code } }.finish = .ok c) ↔
      ∃ c, d.finish = .ok c := by
  have hfunctions : d.functions = d.earlier ++ [f] := by
    rw [functions, hcurrent]
    rfl
  have hfunctions' : { d with current := some { f with code := code } }.functions =
      d.earlier ++ [{ f with code := code }] := rfl
  rw [Draft.exists_finish_iff harena, Draft.exists_finish_iff harena', hfunctions, hfunctions']
  simp only [List.forall_mem_append, List.forall_mem_singleton, f.exists_finish_code code, ne_eq,
    List.append_eq_nil_iff, List.cons_ne_nil, and_false]

namespace CodeListing

/-- The listing of code, inside a function that is ready for code, is accepted.  It adds the words
that have an operation, in order and with their unused bits cleared, to the function; and these are
the words of the code when all of these have an operation and no unused bit is set, and only
then. -/
theorem feed_render {names : Option Namer} (hnames : ∀ namer ∈ names, ∀ k, 0x0A ∉ namer k)
    (code : List Word) {front : Bytes} {d : Draft} {f : FunctionDraft}
    (hfront : (tokenize front).foldl Assembly.feed Assembly.start = .done d)
    (hcurrent : d.current = some f) (hsize : f.maxStackSize.isSome) :
    (tokenize (front ++ 0x0A :: render names code)).foldl Assembly.feed Assembly.start =
        .done { d with current := some { f with code := f.code ++ code.filterMap Word.cleared? } } ∧
      (code.filterMap Word.cleared? = code ↔
        ∀ w ∈ code, w.opcodeNumber < 38 ∧ ∀ op ∈ w.opcode?, w &&& ~~~op.usedBits = 0) ∧
      ((∃ c, parse (front ++ 0x0A :: render names code) = .ok c) ↔ ∃ c, parse front = .ok c) := by
  have hlisted : Word.listed? = Word.cleared? := funext Word.listed?_eq_cleared?
  obtain ⟨H, fs, current⟩ := d
  obtain rfl : current = some f := hcurrent
  have hdescribes : Describes (render names code) (.done ⟨H, fs, some f⟩)
      (.done ⟨H, fs, some { f with code := f.code ++ code.filterMap Word.cleared? }⟩) := by
    rw [← hlisted]
    exact Describes.code code hnames 0 hsize
  have hfeed := foldl_feed_append_line hdescribes hfront
  refine ⟨hfeed, ?_, ?_⟩
  · rw [← hlisted, Word.filterMap_listed?_eq_self_iff]
    exact forall_congr' fun w => forall_congr' fun _ => w.isInstruction_iff
  · obtain ⟨ss, -, hreach⟩ := Assembly.foldl_feed_start_iff.1 hfront
    obtain ⟨ss', -, hreach'⟩ := Assembly.foldl_feed_start_iff.1 hfeed
    have hcode := Draft.exists_finish_code rfl (f.code ++ code.filterMap Word.cleared?)
      hreach.arena hreach'.arena
    simp only [parse_eq_ok_iff_done, hfeed, hfront, Reading.done.injEq, exists_eq_left']
    exact hcode

/-- Source up to where code may stand. -/
def codeFront : Bytes :=
  utf8 ".version 5.1 .function m .maxstacksize 2 ; code"

/-- A function with the given code. -/
def codeDraft (code : List Word) : Draft :=
  { Draft.empty with
    current := some
      { FunctionDraft.declared (utf8 "m") none with maxStackSize := some 2, code := code } }

/-- A word that no operation has the number of, and a jump with a bit that it does not use, stand
between a load and a return. -/
def strayCode : List Word :=
  [0x00000001, 0x00000226, 0x00000216, 0x0080001E]

theorem feed_render_strayCode :
    (tokenize (codeFront ++ 0x0A :: render (some fun _ => utf8 "\"x; y\"") strayCode)).foldl
        Assembly.feed Assembly.start =
      .done (codeDraft [0x00000001, 0x00000016, 0x0080001E]) ∧
      ¬∀ w ∈ strayCode, w.opcodeNumber < 38 ∧ ∀ op ∈ w.opcode?, w &&& ~~~op.usedBits = 0 := by
  have hfront : (tokenize codeFront).foldl Assembly.feed Assembly.start = .done (codeDraft []) := by
    rfl
  have hnames : ∀ namer ∈ some (fun _ : Int => utf8 "\"x; y\""), ∀ k, 0x0A ∉ namer k := by
    rintro _ ⟨⟩ k
    show 0x0A ∉ utf8 "\"x; y\""
    decide +kernel
  have hcleared : strayCode.filterMap Word.cleared? = [0x00000001, 0x00000016, 0x0080001E] := by
    decide +kernel
  obtain ⟨hfeed, hsame, -⟩ := feed_render hnames strayCode hfront rfl rfl
  rw [hcleared] at hfeed hsame
  exact ⟨hfeed, fun h => absurd (hsame.2 h) (by decide)⟩

end CodeListing

end LuaAssembly
