import Mathlib
import LuaAssembly.Editor.Place

/-!
# Words by position

Here the word at a place is found by position: from the place, one scan goes back and another one
ahead as long as they meet word bytes, and the word is what lies between.  Now an access can leave
the text, by asking for a line, a byte or a slice that is not there, and then there is no result.

The main statement is that this never happens.  Both scans end where the longest run of word bytes
that touches the place ends, so the word is that run, and the word in front of the place is the part
of it that lies there.
-/
namespace LuaAssembly.Editor

/-! ## Scans -/

/-- The bytes of a line from one column up to another. -/
def slice? (row : Bytes) (first last : Nat) : Option Bytes :=
  if first ≤ last ∧ last ≤ row.length then some ((row.take last).drop first) else none

/-- Goes back from a column as long as there is a word byte in front. -/
def startOf? (row : Bytes) : Nat → Option Nat
  | 0 => some 0
  | i + 1 => do
    let b ← row[i]?
    if isWordByte b then startOf? row i else return i + 1

/-- Goes ahead from a column as long as there is a word byte and the line has not ended. -/
def stopOf? (row : Bytes) (i : Nat) : Option Nat :=
  if i < row.length then do
    let b ← row[i]?
    if isWordByte b then stopOf? row (i + 1) else return i
  else return i
termination_by row.length - i

/-- The column of a place, which is the end of the line when the line is shorter. -/
def clampedColumn (row : Bytes) (place : Place) : Nat :=
  min place.column row.length

/-- The word in front of a place, by position. -/
def wordBefore? (text : Bytes) (place : Place) : Option Bytes :=
  if (lines text).length ≤ place.line then return []
  else do
    let row ← (lines text)[place.line]?
    let column := clampedColumn row place
    let first ← startOf? row column
    if first = column then return [] else slice? row first column

/-- The word at a place, by position. -/
def wordAt? (text : Bytes) (place : Place) : Option Bytes :=
  if (lines text).length ≤ place.line then return []
  else do
    let row ← (lines text)[place.line]?
    let column := clampedColumn row place
    let first ← startOf? row column
    let last ← stopOf? row column
    if first = last then return [] else slice? row first last

/-! ## Runs of word bytes -/

/-- A word byte stands at the column. -/
def HasWordByte (row : Bytes) (i : Nat) : Prop :=
  ∃ b ∈ row[i]?, isWordByte b = true

/-- From one column up to another there are only word bytes. -/
structure IsRun (row : Bytes) (first last : Nat) : Prop where
  le : first ≤ last
  inside : last ≤ row.length
  hasWordByte : ∀ i, first ≤ i → i < last → HasWordByte row i

/-- The longest run of word bytes that touches a column. -/
structure IsLongestRun (row : Bytes) (column first last : Nat) : Prop
    extends IsRun row first last where
  first_le : first ≤ column
  le_last : column ≤ last
  /-- Every run that touches the column is a part of it. -/
  longest : ∀ first' last', IsRun row first' last' → first' ≤ column → column ≤ last' →
    first ≤ first' ∧ last' ≤ last

variable {row text : Bytes} {place : Place} {column first last i : Nat}

theorem hasWordByte_iff {b : UInt8} (hb : row[i]? = some b) :
    HasWordByte row i ↔ isWordByte b = true := by
  simp [HasWordByte, hb]

theorem HasWordByte.lt_length (h : HasWordByte row i) : i < row.length := by
  obtain ⟨b, hb, -⟩ := h
  exact (List.getElem?_eq_some_iff.1 hb).1

/-- Where a scan back ends: there are word bytes up to the column, and none in front of them. -/
structure IsStart (row : Bytes) (column first : Nat) : Prop where
  le : first ≤ column
  hasWordByte : ∀ i, first ≤ i → i < column → HasWordByte row i
  /-- It has stopped at another byte or at the start of the line. -/
  edge : ∀ i, i + 1 = first → ¬ HasWordByte row i

/-- Where a scan ahead ends: there are word bytes from the column on, and none behind them. -/
structure IsStop (row : Bytes) (column last : Nat) : Prop where
  le : column ≤ last
  inside : last ≤ row.length
  hasWordByte : ∀ i, column ≤ i → i < last → HasWordByte row i
  /-- It has stopped at another byte or at the end of the line. -/
  edge : ¬ HasWordByte row last

theorem IsStart.isLongestRun (hfirst : IsStart row column first) (hlast : IsStop row column last) :
    IsLongestRun row column first last where
  le := hfirst.le.trans hlast.le
  inside := hlast.inside
  hasWordByte i hi hi' := by
    rcases lt_or_ge i column with h | h
    · exact hfirst.hasWordByte i hi h
    · exact hlast.hasWordByte i h hi'
  first_le := hfirst.le
  le_last := hlast.le
  longest first' last' hrun hfirst' hlast' := by
    -- A larger run would have a word byte where a scan has stopped.
    constructor
    · by_contra hlt
      have hle := hfirst.le
      exact hfirst.edge (first - 1) (by omega) (hrun.hasWordByte _ (by omega) (by omega))
    · by_contra hlt
      have hle := hlast.le
      exact hlast.edge (hrun.hasWordByte last (by omega) (by omega))

/-! ## What the scans find -/

/-- A scan back inside the line finds the start of the word bytes in front of the column. -/
theorem exists_startOf? (h : column ≤ row.length) :
    ∃ first, startOf? row column = some first ∧ IsStart row column first ∧
      ((row.take column).reverse.takeWhile isWordByte).reverse =
        (row.take column).drop first := by
  induction column with
  | zero => exact ⟨0, rfl, ⟨le_rfl, by omega, by omega⟩, by simp⟩
  | succ i ih =>
    obtain ⟨b, hget⟩ : ∃ b, row[i]? = some b := ⟨_, List.getElem?_eq_getElem h⟩
    have htake : row.take (i + 1) = row.take i ++ [b] := by
      rw [List.take_add_one, hget]
      rfl
    rw [startOf?, hget, htake, List.reverse_append]
    by_cases hb : isWordByte b = true
    · obtain ⟨first, hscan, hstart, hword⟩ := ih (by omega)
      refine ⟨first, by simpa [hb] using hscan, ⟨hstart.le.trans (by omega), ?_, hstart.edge⟩, ?_⟩
      · intro j hj hj'
        rcases eq_or_ne j i with rfl | hne
        · exact (hasWordByte_iff hget).2 hb
        · exact hstart.hasWordByte j hj (by omega)
      · have hle : first ≤ (row.take i).length := by
          rw [List.length_take]
          have := hstart.le
          omega
        rw [List.reverse_singleton, List.singleton_append, List.takeWhile_cons_of_pos hb,
          List.reverse_cons, hword, List.drop_append_of_le_length hle]
    · refine ⟨i + 1, by simp [hb], ⟨le_rfl, by omega, ?_⟩, ?_⟩
      · intro j hj hword
        obtain rfl : j = i := by omega
        exact hb ((hasWordByte_iff hget).1 hword)
      · rw [List.reverse_singleton, List.singleton_append, List.takeWhile_cons_of_neg hb, ← htake]
        simp

/-- A scan ahead inside the line finds the end of the word bytes behind the column. -/
theorem exists_stopOf? (h : column ≤ row.length) :
    ∃ last, stopOf? row column = some last ∧ IsStop row column last ∧
      (row.drop column).takeWhile isWordByte = (row.take last).drop column := by
  -- The induction is on what is left of the line.
  induction hn : row.length - column generalizing column with
  | zero =>
    obtain rfl : column = row.length := by omega
    refine ⟨row.length, by simp [stopOf?], ⟨le_rfl, le_rfl, by omega, ?_⟩, by simp⟩
    exact fun hword => absurd hword.lt_length (by omega)
  | succ n ih =>
    have hlt : column < row.length := by omega
    obtain ⟨b, hget⟩ : ∃ b, row[column]? = some b := ⟨_, List.getElem?_eq_getElem hlt⟩
    have hdrop : row.drop column = b :: row.drop (column + 1) := by
      rw [List.drop_eq_getElem?_toList_append, hget]
      rfl
    rw [stopOf?, if_pos hlt, hget]
    by_cases hb : isWordByte b = true
    · obtain ⟨last, hscan, hstop, hword⟩ := @ih (column + 1) (by omega) (by omega)
      have hle := hstop.le
      refine ⟨last, by simpa [hb] using hscan, ⟨by omega, hstop.inside, ?_, hstop.edge⟩, ?_⟩
      · intro j hj hj'
        rcases eq_or_ne j column with rfl | hne
        · exact (hasWordByte_iff hget).2 hb
        · exact hstop.hasWordByte j (by omega) hj'
      · have hlast : last - column = (last - (column + 1)) + 1 := by omega
        rw [hdrop, List.takeWhile_cons_of_pos hb, hword, List.drop_take, List.drop_take, hdrop,
          hlast, List.take_succ_cons]
    · refine ⟨column, by simp [hb], ⟨le_rfl, h, by omega, ?_⟩, ?_⟩
      · exact fun hword => hb ((hasWordByte_iff hget).1 hword)
      · rw [hdrop, List.takeWhile_cons_of_neg hb]
        simp

/-! ## Words -/

theorem wordBefore_eq (h : (lines text)[place.line]? = some row) : wordBefore text place =
    ((row.take (clampedColumn row place)).reverse.takeWhile isWordByte).reverse := by
  rw [wordBefore, lineAt, h, Option.getD_some, clampedColumn, ← List.take_eq_take_min]

theorem wordAfter_eq (h : (lines text)[place.line]? = some row) :
    wordAfter text place = (row.drop (clampedColumn row place)).takeWhile isWordByte := by
  rw [wordAfter, lineAt, h, Option.getD_some, clampedColumn, ← List.drop_eq_drop_min]

/-- On a line of the text both scans find the longest run that touches the place, and the words are
cut out of the line there. -/
theorem exists_scans (h : (lines text)[place.line]? = some row) :
    ∃ first last, startOf? row (clampedColumn row place) = some first ∧
      stopOf? row (clampedColumn row place) = some last ∧
      IsLongestRun row (clampedColumn row place) first last ∧
      wordAt text place = (row.take last).drop first ∧
      wordBefore text place = (row.take (clampedColumn row place)).drop first := by
  have hcolumn : clampedColumn row place ≤ row.length := min_le_right _ _
  obtain ⟨first, hfirst, hstart, hbefore⟩ := exists_startOf? hcolumn
  obtain ⟨last, hlast, hstop, hafter⟩ := exists_stopOf? hcolumn
  rw [← wordBefore_eq h] at hbefore
  rw [← wordAfter_eq h] at hafter
  refine ⟨first, last, hfirst, hlast, hstart.isLongestRun hstop, ?_, hbefore⟩
  have hle : first ≤ (row.take (clampedColumn row place)).length := by
    rw [List.length_take_of_le hcolumn]
    exact hstart.le
  have hsplit : (row.take last).take (clampedColumn row place) =
      row.take (clampedColumn row place) := by
    rw [List.take_take, min_eq_left hstop.le]
  rw [wordAt, hbefore, hafter, ← List.drop_append_of_le_length hle, ← hsplit,
    List.take_append_drop]

theorem slice?_of_le (hle : first ≤ last) (hinside : last ≤ row.length) :
    slice? row first last = some ((row.take last).drop first) :=
  if_pos ⟨hle, hinside⟩

/-- Where there is no line there is no word. -/
theorem words_of_no_line (h : (lines text)[place.line]? = none) :
    wordBefore text place = [] ∧ wordAt text place = [] := by
  simp [wordAt, wordBefore, wordAfter, lineAt, h]

/-- No access by position leaves the text, and what is found is the word. -/
theorem words_by_position (text : Bytes) (place : Place) :
    wordBefore? text place = some (wordBefore text place) ∧
      wordAt? text place = some (wordAt text place) := by
  rw [wordBefore?, wordAt?]
  cases hline : (lines text)[place.line]? with
  | none =>
    have hlines := List.getElem?_eq_none_iff.1 hline
    obtain ⟨hbefore, hat⟩ := words_of_no_line hline
    rw [if_pos hlines, if_pos hlines, hbefore, hat]
    exact ⟨rfl, rfl⟩
  | some row =>
    have hlines := (List.getElem?_eq_some_iff.1 hline).1
    obtain ⟨first, last, hfirst, hlast, hrun, hat, hbefore⟩ := exists_scans hline
    have hcolumn : clampedColumn row place ≤ row.length := min_le_right _ _
    rw [if_neg (by omega), if_neg (by omega), hat, hbefore]
    simp only [Option.bind_eq_bind, Option.bind_some, hfirst, hlast,
      slice?_of_le hrun.first_le hcolumn, slice?_of_le hrun.le hrun.inside]
    constructor
    · split_ifs with heq
      · simp [heq]
      · rfl
    · split_ifs with heq
      · simp [heq]
      · rfl

/-- There is no word exactly when neither byte next to the column is a word byte. -/
theorem IsLongestRun.eq_iff (h : IsLongestRun row column first last) :
    first = last ↔ ∀ i, i = column ∨ i + 1 = column → ¬ HasWordByte row i := by
  have hfirst := h.first_le
  have hlast := h.le_last
  constructor
  · rintro rfl i hi hword
    -- A word byte next to the column would be a run on its own.
    have hrun : IsRun row i (i + 1) := by
      refine ⟨by omega, hword.lt_length, fun j hj hj' => ?_⟩
      rwa [show j = i by omega]
    have := h.longest i (i + 1) hrun (by omega) (by omega)
    omega
  · intro hnone
    by_contra hne
    rcases Nat.lt_or_ge first column with hlt | hge
    · exact hnone (column - 1) (by omega) (h.hasWordByte _ (by omega) (by omega))
    · exact hnone column (.inl rfl) (h.hasWordByte _ (by omega) (by omega))

/-- The words of a place.  Found by position, neither of them needs an access outside the text.  On
a line of the text, and with the column cut to its length, the word at the place is the longest run
of word bytes that touches the column, which is empty exactly when no byte next to the column is a
word byte; the word in front of the place is the part of the run up to the column.  Where there is
no line there are no words.  So the one is always a beginning of the other. -/
theorem words_exact (text : Bytes) (place : Place) :
    (wordBefore? text place = some (wordBefore text place) ∧
      wordAt? text place = some (wordAt text place)) ∧
    (∀ row, (lines text)[place.line]? = some row →
      (∃ first last, IsLongestRun row (min place.column row.length) first last ∧
        wordAt text place = (row.take last).drop first ∧
        wordBefore text place = (row.take (min place.column row.length)).drop first) ∧
      (wordAt text place = [] ↔ ∀ i, i = min place.column row.length ∨
        i + 1 = min place.column row.length → ¬ HasWordByte row i)) ∧
    ((lines text).length ≤ place.line → wordBefore text place = [] ∧ wordAt text place = []) ∧
    wordBefore text place <+: wordAt text place := by
  refine ⟨words_by_position text place, fun row hline => ?_, fun hlines => ?_, ?_⟩
  · obtain ⟨first, last, -, -, hrun, hat, hbefore⟩ := exists_scans hline
    refine ⟨⟨first, last, hrun, hat, hbefore⟩, ?_⟩
    rw [← clampedColumn, ← hrun.eq_iff, hat, List.drop_eq_nil_iff,
      List.length_take_of_le hrun.inside]
    have := hrun.le
    omega
  · exact words_of_no_line (List.getElem?_eq_none hlines)
  · exact List.prefix_append _ _

example : wordBefore (utf8 "\nloadk r0 k1") ⟨1, 3⟩ = utf8 "loa" ∧
    wordAt (utf8 "\nloadk r0 k1") ⟨1, 3⟩ = utf8 "loadk" := by decide

end LuaAssembly.Editor
