import LuaAssembly.Source.Failure

/-!
# Reading token by token

A reading is the state of something that is being read from tokens: it is complete, it has failed,
or it waits for the next token.  Statements are read this way, so the assembler as a whole is a
state machine that is fed one token at a time, and what it has found wrong depends only on the
tokens fed so far.
-/
namespace LuaAssembly

/-- The state of reading an `α`. -/
inductive Reading (α : Type) where
  | done (value : α)
  | fail (failure : Failure)
  /-- The next token decides how it goes on. -/
  | next (resume : Token → Reading α)

namespace Reading

variable {α β : Type}

/-- Reads one thing and then another that may depend on it. -/
def andThen : Reading α → (α → Reading β) → Reading β
  | .done a, f => f a
  | .fail e, _ => .fail e
  | .next resume, f => .next fun t => (resume t).andThen f

instance : Monad Reading where
  pure := .done
  bind := andThen

/-- A failed reading with an error at a position. -/
def error (pos : Position) (cause : Cause) : Reading α :=
  .fail (.error ⟨pos, cause⟩)

/-- Reads one token with a given meaning; what is wrong with it is reported at its start. -/
def argument (f : Token → Except Cause α) : Reading α :=
  .next fun t =>
    match f t with
    | .ok a => .done a
    | .error cause => error t.pos cause

@[simp] theorem andThen_done (a : α) (f : α → Reading β) : (done a).andThen f = f a := rfl

@[simp] theorem andThen_fail (e : Failure) (f : α → Reading β) :
    (fail e : Reading α).andThen f = .fail e := rfl

@[simp] theorem andThen_next (resume : Token → Reading α) (f : α → Reading β) :
    (next resume).andThen f = .next fun t => (resume t).andThen f := rfl

end Reading

end LuaAssembly
