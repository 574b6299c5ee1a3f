import Mathlib
import LuaAssembly.Chunk.Decode

/-!
# Reading back what was written

An emission and a decoder belong together when the decoder reads the bytes of the emission, and
exactly these, whatever follows them.  `Emission.ReadIff` says so under a condition, and says that
the decoder refuses the bytes when the condition fails; in this form both directions are carried
through sequences and lists at once.  Strings are compared with the size of the whole chunk, so
the relation is told that size and speaks of emissions that are not larger.
-/
namespace LuaAssembly

/-! ## Sequences of emissions -/

namespace Emission

@[simp] theorem concat_nil : concat [] = ofBytes [] := rfl

@[simp] theorem concat_cons (x : Emission) (xs : List Emission) :
    concat (x :: xs) = x.append (concat xs) := rfl

@[simp] theorem append_ofBytes_nil (x : Emission) : x.append (ofBytes []) = x := by
  obtain ⟨bs, stop⟩ := x
  cases stop <;> simp [append, ofBytes]

theorem append_assoc (x y z : Emission) : (x.append y).append z = x.append (y.append z) := by
  obtain ⟨bs, stop⟩ := x
  obtain ⟨bs', stop'⟩ := y
  cases stop <;> cases stop' <;> simp [append]

theorem append_bytes {x : Emission} (hx : x.stop = none) (y : Emission) :
    (x.append y).bytes = x.bytes ++ y.bytes := by
  simp [append, hx]

theorem append_stop {x : Emission} (hx : x.stop = none) (y : Emission) :
    (x.append y).stop = y.stop := by
  simp [append, hx]

end Emission

/-! ## Emissions and decoders -/

namespace Emission

variable {α β : Type} {total : Nat}

/-- The emission `e` is complete.  In a chunk of `total` bytes the decoder `d` reads the bytes of
`e`, and no others, as the value `a` when `P` holds, and refuses them when `P` does not hold. -/
structure ReadIff (total : Nat) (e : Emission) (d : Decoder α) (a : α) (P : Prop) : Prop where
  complete : e.stop = none
  read : e.bytes.length ≤ total → P →
    ∀ rest pos, d ⟨e.bytes ++ rest, pos⟩ = .ok (a, ⟨rest, pos + e.bytes.length⟩)
  refuse : e.bytes.length ≤ total → ¬ P →
    ∀ rest pos, ∃ problem, d ⟨e.bytes ++ rest, pos⟩ = .error problem

namespace ReadIff

theorem congr {e : Emission} {d : Decoder α} {a : α} {P Q : Prop} (h : ReadIff total e d a P)
    (hPQ : P ↔ Q) : ReadIff total e d a Q :=
  propext hPQ ▸ h

/-- What is always read back. -/
theorem always {e : Emission} {d : Decoder α} {a : α} (hstop : e.stop = none)
    (hread : e.bytes.length ≤ total →
      ∀ rest pos, d ⟨e.bytes ++ rest, pos⟩ = .ok (a, ⟨rest, pos + e.bytes.length⟩)) :
    ReadIff total e d a True :=
  ⟨hstop, fun hle _ => hread hle, fun _ h => absurd trivial h⟩

/-- Writing nothing is read back by reading nothing. -/
theorem nil (a : α) : ReadIff total (concat []) (pure a) a True :=
  always rfl fun _ _ _ => rfl

/-- One thing after another: the whole is read when both parts are. -/
theorem append {e e' : Emission} {d : Decoder α} {f : α → Decoder β} {a : α} {b : β} {P Q : Prop}
    (h : ReadIff total e d a P) (h' : ReadIff total e' (f a) b Q) :
    ReadIff total (e.append e') (d >>= f) b (P ∧ Q) := by
  have hbytes := append_bytes h.complete e'
  have hlen : (e.append e').bytes.length = e.bytes.length + e'.bytes.length := by
    rw [hbytes, List.length_append]
  refine ⟨by rw [append_stop h.complete, h'.complete], ?_, ?_⟩
  · rintro hle ⟨hP, hQ⟩ rest pos
    have hd := h.read (by omega) hP (e'.bytes ++ rest) pos
    have hf := h'.read (by omega) hQ rest (pos + e.bytes.length)
    rw [hlen, hbytes, List.append_assoc, ← Nat.add_assoc, ← hf]
    simp only [bind, Decoder.andThen, hd]
  · intro hle hPQ rest pos
    rw [hbytes, List.append_assoc]
    by_cases hP : P
    · obtain ⟨problem, hf⟩ :=
        h'.refuse (by omega) (fun hQ => hPQ ⟨hP, hQ⟩) rest (pos + e.bytes.length)
      have hd := h.read (by omega) hP (e'.bytes ++ rest) pos
      exact ⟨problem, by simp only [bind, Decoder.andThen, hd, hf]⟩
    · obtain ⟨problem, hd⟩ := h.refuse (by omega) hP (e'.bytes ++ rest) pos
      exact ⟨problem, by simp only [bind, Decoder.andThen, hd]⟩

theorem cons {e : Emission} {es : List Emission} {d : Decoder α} {f : α → Decoder β} {a : α}
    {b : β} {P Q : Prop} (h : ReadIff total e d a P) (h' : ReadIff total (concat es) (f a) b Q) :
    ReadIff total (concat (e :: es)) (d >>= f) b (P ∧ Q) :=
  h.append h'

/-- A part that is always read back adds no condition. -/
theorem cons_always {e : Emission} {es : List Emission} {d : Decoder α} {f : α → Decoder β}
    {a : α} {b : β} {Q : Prop} (h : ReadIff total e d a True)
    (h' : ReadIff total (concat es) (f a) b Q) :
    ReadIff total (concat (e :: es)) (d >>= f) b Q :=
  (h.cons h').congr (iff_of_eq (true_and Q))

/-- Reading one thing and passing on a function of it. -/
theorem map {e : Emission} {d : Decoder α} {a : α} {P : Prop} (h : ReadIff total e d a P)
    (g : α → β) : ReadIff total e (d >>= fun x => pure (g x)) (g a) P := by
  have hseq := h.cons (f := fun x => pure (g x)) (nil (g a))
  rw [concat_cons, concat_nil, append_ofBytes_nil] at hseq
  exact hseq.congr (iff_of_eq (and_true P))

end ReadIff

end Emission

/-! ## Lists -/

namespace Decoder

variable {α : Type}

/-- Reading on after some elements puts them in front. -/
theorem repeatOnto_eq (d : Decoder α) (n : Nat) (acc : List α) :
    repeatOnto d n acc = replicate n d >>= fun xs => pure (acc.reverse ++ xs) := by
  induction n generalizing acc with
  | zero =>
    funext c
    simp [repeatOnto, replicate, bind, andThen, pure, value]
  | succ n ih =>
    funext c
    simp only [replicate, repeatOnto, bind, andThen]
    cases hd : d c with
    | error p => rfl
    | ok r =>
      obtain ⟨a, c'⟩ := r
      simp only [ih (a :: acc), ih [a], bind, andThen, pure, value]
      cases replicate n d c' with
      | error p => rfl
      | ok r => simp

/-- Several things are read as the first and then the others. -/
theorem replicate_succ (n : Nat) (d : Decoder α) :
    replicate (n + 1) d = d >>= fun x => replicate n d >>= fun xs => pure (x :: xs) := by
  funext c
  simp only [replicate, repeatOnto, bind, andThen]
  cases d c with
  | error p => rfl
  | ok r =>
    obtain ⟨a, c'⟩ := r
    simp only [repeatOnto_eq d n [a], bind, andThen, pure, value, replicate]
    rfl

end Decoder

namespace Emission

variable {α β : Type} {total : Nat}

@[simp] theorem each_nil (f : α → Emission) : each f [] = concat [] := rfl

@[simp] theorem each_cons (f : α → Emission) (x : α) (xs : List α) :
    each f (x :: xs) = (f x).append (each f xs) := rfl

/-- A list is read back when each of its elements is. -/
theorem ReadIff.each {f : α → Emission} {d : Decoder β} {g : α → β} {P : α → Prop} {xs : List α}
    (h : ∀ x ∈ xs, ReadIff total (f x) d (g x) (P x)) :
    ReadIff total (each f xs) (Decoder.replicate xs.length d) (xs.map g) (∀ x ∈ xs, P x) := by
  induction xs with
  | nil => exact (ReadIff.nil []).congr (by simp)
  | cons x xs ih =>
    rw [each_cons, List.length_cons, Decoder.replicate_succ, List.map_cons]
    have hx := h x (List.mem_cons_self ..)
    have hxs := ih fun y hy => h y (List.mem_cons_of_mem x hy)
    exact (hx.append (hxs.map (g x :: ·))).congr List.forall_mem_cons.symm

theorem ReadIff.each_always {f : α → Emission} {d : Decoder β} {g : α → β} {xs : List α}
    (h : ∀ x ∈ xs, ReadIff total (f x) d (g x) True) :
    ReadIff total (Emission.each f xs) (Decoder.replicate xs.length d) (xs.map g) True :=
  (ReadIff.each h).congr (by simp)

end Emission

end LuaAssembly
