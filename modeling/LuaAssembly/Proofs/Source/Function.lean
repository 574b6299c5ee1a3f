import Mathlib
import LuaAssembly.Proofs.Chunk.Stored
import LuaAssembly.Proofs.Source.Instruction

/-!
# The listing of a function describes the function

A header listing describes the header, and a function listing declares a function and fills in
everything about it, provided that its integers are integers of 32 bits; if not, the listing is
refused.  Numbers in the constant pool are described as they are read back, so what is not a
number becomes the one that the word `nan` denotes, and the code as it is listed.
-/
namespace LuaAssembly

/-- The constant that the listing of a constant describes. -/
def Constant.reread (k : Constant) : Constant :=
  if k.tag = numberTag then .ofNumber k.number.reread else .ofString k.string

/-- The function that the listing of a function describes, if all of its code is instructions. -/
def Prototype.reread (p : Prototype) : Prototype :=
  { p with constants := p.constants.map Constant.reread }

/-- The function with its code as it is listed. -/
def Prototype.listed (p : Prototype) : Prototype :=
  { p with code := p.code.filterMap Word.listed? }

theorem Prototype.listed_eq_self_iff {p : Prototype} :
    p.listed = p ↔ ∀ w ∈ p.code, w.IsInstruction := by
  rw [← Word.filterMap_listed?_eq_self_iff]
  constructor
  · intro heq
    exact congrArg Prototype.code heq
  · intro hcode
    rw [listed, hcode]

/-- A constant of which nothing is lost in a listing: a number, but not one that is written `NaN`
and is another than the word denotes, or a string. -/
def Constant.IsExact (k : Constant) : Prop :=
  (k = .ofNumber k.number ∧ (k.number.isNaN → k.number = .nan)) ∨ k = .ofString k.string

instance (k : Constant) : Decidable k.IsExact :=
  inferInstanceAs (Decidable (_ ∨ _))

theorem Constant.IsExact.tag {k : Constant} (h : k.IsExact) :
    k.tag = numberTag ∨ k.tag = stringTag := by
  rcases h with ⟨hk, -⟩ | hk
  · exact .inl (by rw [hk]; rfl)
  · exact .inr (by rw [hk]; rfl)

theorem Constant.IsExact.reread_eq {k : Constant} (h : k.IsExact) : k.reread = k := by
  rcases h with ⟨hk, hnan⟩ | hk
  · have htag : k.tag = numberTag := by rw [hk]; rfl
    have hnumber : k.number.reread = k.number := by
      rw [Number.reread]
      split_ifs with h
      · exact (hnan h).symm
      · rfl
    rw [reread, if_pos htag, hnumber, ← hk]
  · have htag : k.tag ≠ numberTag := by rw [hk]; exact (by decide : stringTag ≠ numberTag)
    rw [reread, if_neg htag, ← hk]

/-- A function whose listing can be assembled and keeps all of its code. -/
@[mk_iff]
structure Prototype.Listable (p : Prototype) : Prop where
  lineDefined : IsInt32 p.lineDefined
  lastLineDefined : IsInt32 p.lastLineDefined
  code : ∀ w ∈ p.code, w.IsInstruction
  constants : ∀ k ∈ p.constants, k.tag = Constant.numberTag ∨ k.tag = Constant.stringTag
  lines : ∀ v ∈ p.lines, IsInt32 v
  locals : ∀ x ∈ p.locals, IsInt32 x.first ∧ IsInt32 x.last
  upvalues : ∀ x ∈ p.upvalues, IsInt32 x.index
  upvalueCount : p.upvalues.length ≤ FunctionDraft.upvalueLimit

instance (p : Prototype) : Decidable p.Listable :=
  -- Without this the code would be checked by going through all words.
  have : Decidable (∀ w ∈ p.code, w.IsInstruction) := List.decidableBAll _ p.code
  decidable_of_iff _ p.listable_iff.symm

/-- The integers of the function are integers of 32 bits. -/
@[mk_iff]
structure Prototype.InRange (p : Prototype) : Prop where
  lineDefined : IsInt32 p.lineDefined
  lastLineDefined : IsInt32 p.lastLineDefined
  lines : ∀ v ∈ p.lines, IsInt32 v
  locals : ∀ x ∈ p.locals, IsInt32 x.first ∧ IsInt32 x.last
  upvalues : ∀ x ∈ p.upvalues, IsInt32 x.index

namespace Prototype.Listable

variable {p : Prototype}

theorem inRange (hp : p.Listable) : p.InRange :=
  ⟨hp.lineDefined, hp.lastLineDefined, hp.lines, hp.locals, hp.upvalues⟩

theorem encodable (hp : p.Listable) : p.Encodable :=
  ⟨hp.constants, hp.upvalueCount⟩

end Prototype.Listable

/-- The draft of a function of which everything is known. -/
def FunctionDraft.ofPrototype (name : Bytes) (parent : Option Nat) (p : Prototype) :
    FunctionDraft :=
  { name, parent, source := some p.source, lineDefined := some p.lineDefined,
    lastLineDefined := some p.lastLineDefined, numParams := some p.numParams,
    isVararg := some p.isVararg, maxStackSize := some p.maxStackSize, code := p.code,
    constants := p.constants, lines := p.lines, locals := p.locals, upvalues := p.upvalues }

theorem FunctionDraft.finish_ofPrototype (name : Bytes) (parent : Option Nat) (p : Prototype) :
    (ofPrototype name parent p).finish = .ok p :=
  rfl

namespace Describes

variable {H : HeaderDraft} {fs : List FunctionDraft} {f : FunctionDraft} {d : Draft}
  {dir : Directive} {args : List (TokenKind × Bytes)} {st : Statement}

/-- A written statement is applied to the draft. -/
theorem spelled {text : Bytes} (htext : Spells text ((.word, dir.token) :: args))
    (h : st.Written dir args) (hst : st.InRange)
    (hobjection : d.objection? (.directive dir) = none) :
    Describes text (.done d)
      (.done { d with header := d.header.apply st, current := d.current.map (·.apply st) }) := by
  refine Describes.directive dir htext hobjection ((h.gives hst).imp ?_)
  rintro _ rfl
  cases h <;> rfl

theorem written (h : st.Written dir args) (hst : st.InRange)
    (hobjection : d.objection? (.directive dir) = none) :
    Describes (Bytes.join (utf8 " ") (dir.token :: args.map Prod.snd) ++ utf8 "\n") (.done d)
      (.done { d with header := d.header.apply st, current := d.current.map (·.apply st) }) :=
  spelled (Spells.directive dir h.isArgument) h hst hobjection

/-! ## The header -/

theorem version : Describes (Listing.directive ".version" [utf8 "5.1"]) Assembly.start
    (.done .empty) := by
  have hversion : IsArgument (.word, Directive.versionToken) :=
    .word (isWord_utf8 (by decide +kernel))
  have hnumber : IsArgument (.word, Assembly.versionNumber) :=
    .word (isWord_utf8 (by decide +kernel))
  have hgives : Assembly.start.Gives (· = .empty)
      [(.word, Directive.versionToken), (.word, Assembly.versionNumber)] :=
    Reading.gives_argument_bind (fun t _ ht => if_pos ht) <|
      Reading.gives_argument_bind (fun t _ ht => if_pos ht) rfl
  have hargs : ∀ s ∈ [(TokenKind.word, Directive.versionToken), (.word, Assembly.versionNumber)],
      IsArgument s := by simp [hversion, hnumber]
  refine ⟨_, Spells.line hargs, ?_⟩
  intro ts hts
  obtain ⟨d, rfl, hfeed⟩ := Assembly.foldl_feed_of_gives hgives hts
  exact hfeed

/-- The draft of a header of which everything is known. -/
def headerDraft (h : Header) (o : ByteOrder) : HeaderDraft :=
  ⟨some h.format, some o, some h.intSize, some h.sizeTSize, some h.instructionSize,
    some (h.integral, h.numberSize)⟩

theorem headerDraft_finish {h : Header} {o : ByteOrder}
    (ho : ByteOrder.ofTag? h.endianness = some o) : (headerDraft h o).finish = .ok h := by
  have htag : o.tag = h.endianness := by
    rw [ByteOrder.ofTag?] at ho
    split_ifs at ho with h₁ h₂
    · cases ho
      exact h₁.symm
    · cases ho
      exact h₂.symm
  cases h
  cases htag
  rfl

theorem header {h : Header} {o : ByteOrder} (ho : ByteOrder.ofTag? h.endianness = some o) :
    Describes (Listing.header h) Assembly.start (.done ⟨headerDraft h o, [], none⟩) := by
  have hname : ByteOrder.nameOfTag h.endianness = o.name := by
    rw [ByteOrder.nameOfTag, ho]
  rw [Listing.header, hname]
  refine append (append (append (append (append (append version
    (written (.format _) trivial rfl)) (written (.endianness o) trivial rfl))
    (written (.intSize _) trivial rfl)) (written (.sizeTSize _) trivial rfl))
    (written (.instructionSize _) trivial rfl)) (written (.numberFormat _ _) trivial rfl)

/-! ## Functions -/

theorem declaration {path : Bytes} {parent : Option Nat} (hpath : IsWord path)
    (hparent : Draft.parentOf d.functions path = .ok parent) :
    Describes (Listing.directive ".function" [path]) (.done d)
      (.done ⟨d.header, d.functions, some (.declared path parent)⟩) := by
  have hargs : ∀ s ∈ [(TokenKind.word, path)], IsArgument s := by simpa using .word hpath
  refine Describes.directive .function (Spells.directive .function hargs) rfl
    (Reading.gives_argument ?_)
  intro t ht
  obtain ⟨hkind, hliteral⟩ := Prod.mk.inj ht
  refine ⟨.function path t.pos, ?_, ?_⟩
  · rw [Argument.name_word hkind hliteral]
    rfl
  · simp only [Draft.apply, Draft.declare, hparent]
    rfl

theorem constants {ks : List Constant} (i : Nat)
    (hks : ∀ k ∈ ks, k.tag = Constant.numberTag ∨ k.tag = Constant.stringTag) :
    Describes (Listing.constantsFrom i ks).flatten (.done ⟨H, fs, some f⟩)
      (.done ⟨H, fs, some { f with constants := f.constants ++ ks.map Constant.reread }⟩) := by
  induction ks generalizing i f with
  | nil => simpa [Listing.constantsFrom] using nil _
  | cons k ks ih =>
    rw [List.forall_mem_cons] at hks
    have hlabel : IsWord (utf8 "k" ++ Numeral.ofNat i) :=
      (isWord_utf8 (by decide +kernel)).append (isWord_ofNat i).bytes
    have hfirst : Describes (Listing.directive ".constant" [utf8 "k" ++ Numeral.ofNat i, k.describe])
        (.done ⟨H, fs, some f⟩)
        (.done ⟨H, fs, some { f with constants := f.constants ++ [k.reread] }⟩) := by
      rcases hks.1 with htag | htag
      · rw [Constant.describe, Constant.reread, if_pos htag, if_pos htag]
        exact written (.number hlabel k.number) trivial rfl
      · have hne : k.tag ≠ Constant.numberTag := by
          rw [htag]
          decide
        rw [Constant.describe, Constant.reread, if_neg hne, if_pos htag, if_neg hne]
        exact written (.string hlabel k.string) trivial rfl
    rw [Listing.constantsFrom, List.flatten_cons, List.map_cons, List.append_cons]
    exact hfirst.append (ih (i + 1) hks.2)

theorem code (ws : List Word) {names : Option CodeListing.Namer}
    (hnames : ∀ namer ∈ names, ∀ k, 0x0A ∉ namer k) (pc : Nat) (hf : f.maxStackSize.isSome) :
    Describes ((CodeListing.linesFrom names pc ws).flatMap fun l => l ++ utf8 "\n")
      (.done ⟨H, fs, some f⟩)
      (.done ⟨H, fs, some { f with code := f.code ++ ws.filterMap Word.listed? }⟩) := by
  induction ws generalizing pc f with
  | nil => simpa [CodeListing.linesFrom] using nil _
  | cons w ws ih =>
    have hcons : (w :: ws).filterMap Word.listed? =
        w.listed?.toList ++ ws.filterMap Word.listed? := by
      cases hw : w.listed? <;> simp [hw]
    rw [CodeListing.linesFrom, List.flatMap_cons, hcons, ← List.append_assoc]
    exact (word w hnames pc hf).append (ih (pc + 1) hf)

theorem newline_not_mem_describe (k : Constant)
    (hk : k.tag = Constant.numberTag ∨ k.tag = Constant.stringTag) : 0x0A ∉ k.describe := by
  rw [Constant.describe]
  split_ifs with hnumber hstring
  · exact newline_not_mem_of_wordBytes (isWord_number k.number).bytes
  · exact Literal.newline_not_mem_quote k.string
  · exact absurd hk (by simp [hnumber, hstring])

end Describes

namespace DescribesIff

variable {H : HeaderDraft} {fs : List FunctionDraft} {f : FunctionDraft} {d : Draft}
  {dir : Directive} {args : List (TokenKind × Bytes)} {st : Statement} {P : Prop}

/-- A written statement is applied to the draft if its integers are in range. -/
theorem spelled {text : Bytes} (htext : Spells text ((.word, dir.token) :: args))
    (h : st.Written dir args) (hobjection : d.objection? (.directive dir) = none) :
    DescribesIff st.InRange text (.done d)
      (.done { d with header := d.header.apply st, current := d.current.map (·.apply st) }) :=
  ⟨fun hst => .spelled htext h hst hobjection,
    fun hst => .directive dir htext hobjection (h.fails hst)⟩

theorem written (h : st.Written dir args) (hobjection : d.objection? (.directive dir) = none) :
    DescribesIff st.InRange
      (Bytes.join (utf8 " ") (dir.token :: args.map Prod.snd) ++ utf8 "\n") (.done d)
      (.done { d with header := d.header.apply st, current := d.current.map (·.apply st) }) :=
  spelled (Spells.directive dir h.isArgument) h hobjection

theorem block {lines : List Bytes} {r r' : Reading Draft}
    (h : DescribesIff P lines.flatten r r') : DescribesIff P (Listing.block lines) r r' := by
  rw [Listing.block]
  split_ifs with hlines
  · rwa [hlines, List.flatten_nil] at h
  · exact ((Describes.newline r).iff.append h).congr (iff_of_eq (true_and P))

theorem upvalues {us : List Upvalue}
    (hcount : f.upvalues.length + us.length ≤ FunctionDraft.upvalueLimit) :
    DescribesIff (∀ u ∈ us, IsInt32 u.index) (us.map Listing.upvalue).flatten
      (.done ⟨H, fs, some f⟩) (.done ⟨H, fs, some { f with upvalues := f.upvalues ++ us }⟩) := by
  induction us generalizing f with
  | nil => simpa using (Describes.nil _).iff
  | cons u us ih =>
    rw [List.length_cons] at hcount
    have hroom : (Draft.mk H fs (some f)).objection? (.directive .upvalue) = none :=
      if_neg (by omega)
    have hcount' : (f.upvalues ++ [u]).length + us.length ≤ FunctionDraft.upvalueLimit := by
      rw [List.length_append, List.length_singleton]
      omega
    rw [List.map_cons, List.flatten_cons, List.append_cons, List.forall_mem_cons]
    exact (written (.upvalue u) hroom).append (ih hcount')

theorem lines {vs : List Int} (pc : Nat) :
    DescribesIff (∀ v ∈ vs, IsInt32 v) (Listing.linesFrom pc vs).flatten
      (.done ⟨H, fs, some f⟩) (.done ⟨H, fs, some { f with lines := f.lines ++ vs }⟩) := by
  induction vs generalizing pc f with
  | nil => simpa [Listing.linesFrom] using (Describes.nil _).iff
  | cons v vs ih =>
    have hbody : 0x0A ∉ utf8 "[" ++ Numeral.ofNat pc ++ utf8 "]" := by
      have hpc := newline_not_mem_of_wordBytes (isWord_ofNat pc).bytes
      have hopen : 0x0A ∉ utf8 "[" := by decide
      have hclose : 0x0A ∉ utf8 "]" := by decide
      simp [hopen, hpc, hclose]
    have hspells := (Spells.word (b := 0x20) (isWord_token .line) (by decide)).append
      (Spells.remark 8 (Spells.word (isWord_ofInt v) (by decide)) hbody)
    have htext : utf8 ".line " ++ (Numeral.ofInt v).padRight 8 ++ utf8 " ; [" ++
        Numeral.ofNat pc ++ utf8 "]\n" = Directive.line.token ++ [0x20] ++
          ((Numeral.ofInt v).padRight 8 ++ utf8 " ; " ++
            (utf8 "[" ++ Numeral.ofNat pc ++ utf8 "]") ++ utf8 "\n") := by
      rw [show utf8 ".line " = Directive.line.token ++ [0x20] by decide,
        show utf8 " ; [" = utf8 " ; " ++ utf8 "[" by decide,
        show utf8 "]\n" = utf8 "]" ++ utf8 "\n" by decide]
      simp only [List.append_assoc]
    rw [Listing.linesFrom, List.flatten_cons, List.append_cons, htext, List.forall_mem_cons]
    exact (spelled hspells (.line v) rfl).append (ih (pc + 1))

theorem locals {xs : List LocalVar} :
    DescribesIff (∀ x ∈ xs, IsInt32 x.first ∧ IsInt32 x.last)
      (xs.map Listing.localVar).flatten (.done ⟨H, fs, some f⟩)
      (.done ⟨H, fs, some { f with locals := f.locals ++ xs }⟩) := by
  induction xs generalizing f with
  | nil => simpa using (Describes.nil _).iff
  | cons x xs ih =>
    rw [List.map_cons, List.flatten_cons, List.append_cons, List.forall_mem_cons]
    exact (written (.localVar x) rfl).append ih

/-- The listing of a function declares it and fills in everything. -/
theorem function {path : Bytes} {parent : Option Nat} {p : Prototype} (hp : p.Encodable)
    (hpath : IsWord path) (hparent : Draft.parentOf d.functions path = .ok parent) :
    DescribesIff p.InRange (Listing.function path p) (.done d)
      (.done ⟨d.header, d.functions, some (.ofPrototype path parent p.listed.reread)⟩) := by
  have hnames : ∀ namer ∈ some (Listing.namer p.constants), ∀ k, 0x0A ∉ namer k := by
    rintro _ ⟨⟩ k
    rw [Listing.namer]
    split
    · exact Describes.newline_not_mem_describe _ (hp.tags _ (List.mem_of_getElem? ‹_›))
    · simp
  have hcode : ∀ f : FunctionDraft, f.maxStackSize.isSome →
      Describes (Listing.code p) (.done ⟨d.header, d.functions, some f⟩)
        (.done ⟨d.header, d.functions,
          some { f with code := f.code ++ p.code.filterMap Word.listed? }⟩) := by
    intro f hf
    rw [Listing.code]
    split_ifs with hempty
    · simpa [hempty] using Describes.nil _
    · exact (Describes.newline _).append (Describes.code p.code hnames 0 hf)
  rw [Listing.function]
  refine (append (append (append (append (append (append (append (append (append (append (append
    (Describes.declaration hpath hparent).iff (written (.source _) rfl))
    (written (.lineDefined _) rfl)) (written (.lastLineDefined _) rfl))
    (written (.numParams _) rfl)) (written (.isVararg _) rfl)) (written (.maxStackSize _) rfl))
    (block (upvalues ?_))) (block (Describes.constants 0 hp.tags).iff)) (block (lines 0)))
    (block locals)) (hcode _ rfl).iff).congr ?_
  · simpa [FunctionDraft.apply, FunctionDraft.declared, FunctionDraft.upvalueLimit] using hp.upvalues
  · simp only [Statement.InRange, Prototype.inRange_iff]
    tauto

end DescribesIff

end LuaAssembly
