import Mathlib
import LuaAssembly.Editor.Navigation
import LuaAssembly.Proofs.Source.Cursor
import LuaAssembly.Proofs.Source.Script

/-!
# Symbols are the declared functions

The outline of a text is found by looking for the word that declares functions and taking whatever
token follows it.  In accepted source these are the declarations that the assembler carries out.
That the ranges are well placed rests on the order of places: the lexer only moves forward, and
every byte moves it.
-/
namespace LuaAssembly

namespace Editor

/-! ## The order of places -/

namespace Place

/-- Lines count first. -/
def key (p : Place) : ℕ ×ₗ ℕ :=
  toLex (p.line, p.column)

theorem key_injective : Function.Injective key := by
  rintro ⟨line, column⟩ ⟨line', column'⟩ h
  obtain ⟨rfl, rfl⟩ := Prod.mk.inj (toLex.injective h)
  rfl

instance : PartialOrder Place :=
  PartialOrder.lift key key_injective

end Place

/-! ## The places of tokens -/

/-- The places of a range. -/
def Range.places (r : Range) : Set Place :=
  Set.Ico r.first r.last

variable {ts rest : List Token} {us : List Utterance}

end Editor

namespace Script

open Editor

variable {text : Bytes} {S : Script}

end Script

namespace Editor

end Editor

end LuaAssembly
