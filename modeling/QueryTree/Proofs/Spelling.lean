import Mathlib.Computability.StateTransition
import Mathlib.Data.List.DropRight
import QueryTree.Operator

/-! # Spelled operators

An operator is spelled by a run of marks and a symbol in any letter case, between any blanks.
`Operator.Spelling` has the parts of such a text, and reading finds them again: it takes off blanks
at both ends, then marks as long as one stands in front, and a symbol neither starts nor ends with
either of them. So a text is read exactly if it has a spelling, and it has one at most. -/

namespace QueryTree

/-! ## Blanks -/

namespace Text

/-- The text has no other characters than blanks. -/
def Blank (cs : List Char) : Prop := ∀ c ∈ cs, isBlank c = true

/-- The text does not start with a blank, and does not end with one. -/
structure Tight (cs : List Char) : Prop where
  first : ∀ c ∈ cs.head?, isBlank c = false
  last : ∀ c ∈ cs.getLast?, isBlank c = false

variable {before cs after : List Char}

/-- Blanks are dropped from the front up to the first other character. -/
theorem dropWhile_isBlank (hbefore : Blank before) (hfirst : ∀ c ∈ cs.head?, isBlank c = false) :
    (before ++ cs).dropWhile isBlank = cs := by
  rw [List.dropWhile_append_of_pos hbefore]
  cases cs with
  | nil => rfl
  | cons c rest =>
    have hc : isBlank c = false := hfirst c rfl
    exact List.dropWhile_cons_of_neg (by simp [hc])

/-- Blanks are dropped from the end back to the last other character. -/
theorem rdropWhile_isBlank (hafter : Blank after) (hlast : ∀ c ∈ cs.getLast?, isBlank c = false) :
    (cs ++ after).rdropWhile isBlank = cs := by
  have hdrop : (after.reverse ++ cs.reverse).dropWhile isBlank = cs.reverse := by
    refine dropWhile_isBlank (fun c hc => hafter c (List.mem_reverse.1 hc)) ?_
    rwa [List.head?_reverse]
  rw [List.rdropWhile, List.reverse_append, hdrop, List.reverse_reverse]

section Between

variable (hbefore : Blank before) (hcs : Tight cs) (hne : cs ≠ [])

include hbefore hcs hne

/-- Dropping blanks from the front leaves those behind the text. -/
theorem dropWhile_between : (before ++ (cs ++ after)).dropWhile isBlank = cs ++ after := by
  refine dropWhile_isBlank hbefore ?_
  rw [List.head?_append_of_ne_nil _ hne]
  exact hcs.first

/-- Blanks around a text that has none at its ends are taken off. -/
theorem trim_between (hafter : Blank after) : trim (before ++ (cs ++ after)) = cs := by
  show ((before ++ (cs ++ after)).dropWhile isBlank).rdropWhile isBlank = cs
  rw [dropWhile_between hbefore hcs hne, rdropWhile_isBlank hafter hcs.last]

end Between

/-- Nothing but blanks is taken off. -/
theorem exists_trim (cs : List Char) :
    ∃ before after, Blank before ∧ Blank after ∧ cs = before ++ (trim cs ++ after) := by
  refine ⟨cs.takeWhile isBlank, (cs.dropWhile isBlank).rtakeWhile isBlank,
    fun c hc => List.mem_takeWhile_imp hc, fun c hc => List.mem_rtakeWhile_imp hc, ?_⟩
  have hend : trim cs ++ (cs.dropWhile isBlank).rtakeWhile isBlank = cs.dropWhile isBlank := by
    rw [trim, List.rtakeWhile, ← List.reverse_append, List.takeWhile_append_dropWhile,
      List.reverse_reverse]
  rw [hend, List.takeWhile_append_dropWhile]

/-- No character from `A` to `z` is a blank. -/
theorem isBlank_of_between {c : Char} (hlow : 65 ≤ c.toNat) (hhigh : c.toNat ≤ 122) :
    isBlank c = false := by
  rw [isBlank, Bool.eq_false_iff]
  simp only [Ne, Bool.or_eq_true, Bool.and_eq_true, decide_eq_true_eq, beq_iff_eq]
  omega

/-- Letter case has nothing to do with blanks. -/
theorem isBlank_toLower (c : Char) : isBlank c.toLower = isBlank c := by
  by_cases hupper : c.val ≥ 'A'.val ∧ c.val ≤ 'Z'.val
  · obtain ⟨hlow, hhigh⟩ := hupper
    have hlow' : 65 ≤ c.toNat := hlow
    have hhigh' : c.toNat ≤ 90 := hhigh
    have hlower : c.toLower.toNat = c.toNat + 32 := by
      have hmoved : c.toLower = _ := dif_pos ⟨hlow, hhigh⟩
      rw [hmoved]
      show (c.val.toNat + 32) % 2 ^ 32 = c.val.toNat + 32
      change c.val.toNat ≤ 90 at hhigh'
      omega
    rw [isBlank_of_between (by omega) (by omega), isBlank_of_between (by omega) (by omega)]
  · have hsame : c.toLower = c := dif_neg hupper
    rw [hsame]

end Text

/-! ## Marks -/

/-- What may stand in front of a symbol, once or more often. -/
inductive Mark where
  | caseInsensitive
  | orNull
deriving DecidableEq, Repr

namespace Mark

/-- The characters of a mark. -/
def chars : Mark → List Char
  | caseInsensitive => ['#']
  | orNull => ['^', '|', '|']

/-- Sets the modifier that the mark stands for. -/
def set (m : Modifiers) : Mark → Modifiers
  | caseInsensitive => { m with caseInsensitive := true }
  | orNull => { m with orNull := true }

/-- The mark at the front of a text, and the text behind it. -/
def take? : List Char → Option (Mark × List Char)
  | '#' :: cs => some (caseInsensitive, cs)
  | '^' :: '|' :: '|' :: cs => some (orNull, cs)
  | _ => none

/-- A mark is taken from in front of any text. -/
theorem take?_chars_append (mark : Mark) (cs : List Char) :
    take? (mark.chars ++ cs) = some (mark, cs) := by
  cases mark <;> rfl

/-- A run of marks ends where no mark stands in front, so a text starts with one such run only. -/
theorem run_unique {marks marks' : List Mark} {rest rest' : List Char}
    (hrest : take? rest = none) (hrest' : take? rest' = none)
    (h : marks.flatMap chars ++ rest = marks'.flatMap chars ++ rest') :
    marks = marks' ∧ rest = rest' := by
  induction marks generalizing marks' with
  | nil =>
    cases marks' with
    | nil => exact ⟨rfl, h⟩
    | cons mark' marks' =>
      rw [List.flatMap_nil, List.nil_append, List.flatMap_cons, List.append_assoc] at h
      rw [h, take?_chars_append] at hrest
      cases hrest
  | cons mark marks ih =>
    rw [List.flatMap_cons, List.append_assoc] at h
    have htake := congrArg take? h
    rw [take?_chars_append] at htake
    cases marks' with
    | nil =>
      rw [List.flatMap_nil, List.nil_append, hrest'] at htake
      cases htake
    | cons mark' marks' =>
      rw [List.flatMap_cons, List.append_assoc, take?_chars_append, Option.some.injEq,
        Prod.mk.injEq] at htake
      obtain ⟨rfl, htail⟩ := htake
      obtain ⟨rfl, rfl⟩ := ih htail
      exact ⟨rfl, rfl⟩

end Mark

namespace Modifiers

/-- The modifiers of a run of marks: those whose mark occurs. -/
def ofMarks (marks : List Mark) : Modifiers where
  caseInsensitive := decide (.caseInsensitive ∈ marks)
  orNull := decide (.orNull ∈ marks)

/-- One round of reading marks, with the modifiers so far and the text that is left. There is none
where no mark stands in front. -/
def round : Modifiers × List Char → Option (Modifiers × List Char)
  | (m, cs) => (Mark.take? cs).map fun (mark, rest) => (mark.set m, rest)

/-- Marks set the modifiers whose mark occurs, and clear none. -/
theorem foldl_set (marks : List Mark) (m : Modifiers) :
    marks.foldl Mark.set m
      = ⟨m.caseInsensitive || (ofMarks marks).caseInsensitive,
        m.orNull || (ofMarks marks).orNull⟩ := by
  induction marks generalizing m with
  | nil => simp [ofMarks]
  | cons mark marks ih =>
    rw [List.foldl_cons, ih]
    cases mark <;> simp [Mark.set, ofMarks]

/-- The rounds take a run of marks off, mark by mark. -/
theorem reaches_round (marks : List Mark) (m : Modifiers) (rest : List Char) :
    StateTransition.Reaches round (m, marks.flatMap Mark.chars ++ rest)
      (marks.foldl Mark.set m, rest) := by
  induction marks generalizing m with
  | nil => exact .refl
  | cons mark marks ih =>
    rw [List.flatMap_cons, List.append_assoc, List.foldl_cons]
    refine .head ?_ (ih (mark.set m))
    rw [round, Mark.take?_chars_append]
    rfl

/-- What is taken off is a run of marks, and no mark stands in front of the rest. -/
theorem exists_strip (cs : List Char) :
    ∃ marks, cs = marks.flatMap Mark.chars ++ (strip cs).2 ∧ (strip cs).1 = ofMarks marks
      ∧ Mark.take? (strip cs).2 = none := by
  fun_induction strip cs with
  | case1 cs m rest heq ih =>
    rw [heq] at ih
    obtain ⟨marks, rfl, rfl, hrest⟩ := ih
    exact ⟨.caseInsensitive :: marks, rfl, by simp [ofMarks], hrest⟩
  | case2 cs m rest heq ih =>
    rw [heq] at ih
    obtain ⟨marks, rfl, rfl, hrest⟩ := ih
    exact ⟨.orNull :: marks, rfl, by simp [ofMarks], hrest⟩
  | case3 cs hcase hnull =>
    refine ⟨[], rfl, rfl, ?_⟩
    show Mark.take? cs = none
    unfold Mark.take?
    split
    · next rest => exact (hcase rest rfl).elim
    · next rest => exact (hnull rest rfl).elim
    · rfl

/-- A run of marks is taken off as a whole. -/
theorem strip_run (marks : List Mark) {rest : List Char} (hrest : Mark.take? rest = none) :
    strip (marks.flatMap Mark.chars ++ rest) = (ofMarks marks, rest) := by
  obtain ⟨marks', heq, hmodifiers, hend⟩ := exists_strip (marks.flatMap Mark.chars ++ rest)
  obtain ⟨rfl, htail⟩ := Mark.run_unique hrest hend heq
  exact Prod.ext hmodifiers htail.symm

/-- The rounds come to an end at every text, with the modifiers and the rest that `strip` gives. -/
theorem strip_mem_eval (cs : List Char) :
    strip cs ∈ StateTransition.eval round (plain, cs) := by
  obtain ⟨marks, heq, hmodifiers, hend⟩ := exists_strip cs
  have hset : marks.foldl Mark.set plain = (strip cs).1 := by
    rw [foldl_set, hmodifiers]
    simp [plain]
  have hreaches := reaches_round marks plain (strip cs).2
  rw [hset, ← heq] at hreaches
  refine StateTransition.mem_eval.2 ⟨hreaches, ?_⟩
  show (Mark.take? (strip cs).2).map _ = none
  rw [hend]
  rfl

end Modifiers

/-! ## Symbols -/

namespace Comparator

variable {k : Comparator} {cs : List Char}

/-- The symbols of comparators are in lower case. -/
theorem symbol_toLower (k : Comparator) : k.symbol.toList.map Char.toLower = k.symbol.toList := by
  cases k <;> decide

/-- No symbol is that of two comparators, so the first one that is found is the one. -/
theorem ofSymbol?_eq_some_iff :
    ofSymbol? cs = some k ↔ cs.map Char.toLower = k.symbol.toList := by
  constructor
  · intro h
    have hfound := List.find?_some h
    exact (beq_iff_eq.1 hfound).symm
  · intro h
    rw [ofSymbol?, h]
    cases k <;> decide

/-- No symbol begins with a blank or a mark, and none ends with a blank. -/
theorem symbol_ends (k : Comparator) :
    (∀ c ∈ k.symbol.toList.head?, Text.isBlank c = false ∧ c ≠ '#' ∧ c ≠ '^')
      ∧ ∀ c ∈ k.symbol.toList.getLast?, Text.isBlank c = false := by
  constructor
  · cases k <;> rintro c ⟨⟩ <;> decide
  · cases k <;> rintro c ⟨⟩ <;> decide

/-- What spells a symbol is not empty. -/
theorem ne_nil_of_symbol (h : cs.map Char.toLower = k.symbol.toList) : cs ≠ [] := by
  rintro rfl
  cases k <;> cases h

/-- A symbol has no blank at its ends, in whatever letter case. -/
theorem tight_of_symbol (h : cs.map Char.toLower = k.symbol.toList) : Text.Tight cs := by
  obtain ⟨hfirst, hlast⟩ := k.symbol_ends
  rw [← h] at hfirst hlast
  constructor
  · intro c hc
    rw [← Text.isBlank_toLower]
    exact (hfirst _ (by rw [List.head?_map, hc]; rfl)).1
  · intro c hc
    rw [← Text.isBlank_toLower]
    exact hlast _ (by rw [List.getLast?_map, hc]; rfl)

/-- A symbol does not start like a mark. -/
theorem take?_of_symbol (h : cs.map Char.toLower = k.symbol.toList) : Mark.take? cs = none := by
  obtain ⟨hfirst, -⟩ := k.symbol_ends
  rw [← h, List.head?_map] at hfirst
  unfold Mark.take?
  split
  · exact ((hfirst _ rfl).2.1 rfl).elim
  · exact ((hfirst _ rfl).2.2 rfl).elim
  · rfl

end Comparator

/-! ## Spellings -/

namespace Operator

/-- The parts of a text that spells an operator: blanks, marks in any number and order, the symbol
in any letter case, and blanks again. -/
@[ext]
structure Spelling where
  before : List Char
  marks : List Mark
  comparator : Comparator
  symbol : List Char
  after : List Char
  blank_before : Text.Blank before
  symbol_eq : symbol.map Char.toLower = comparator.symbol.toList
  blank_after : Text.Blank after

namespace Spelling

/-- The marks and the symbol. -/
def core (d : Spelling) : List Char := d.marks.flatMap Mark.chars ++ d.symbol

/-- The whole text. -/
def text (d : Spelling) : String := String.ofList (d.before ++ (d.core ++ d.after))

/-- The operator that is spelled: the symbol's comparator, with a modifier for each mark that
occurs. -/
def operator (d : Spelling) : Operator := ⟨d.comparator, .ofMarks d.marks⟩

variable (d : Spelling)

/-- Marks and symbol are never empty. -/
theorem core_ne_nil : d.core ≠ [] :=
  List.append_ne_nil_of_right_ne_nil _ (Comparator.ne_nil_of_symbol d.symbol_eq)

/-- Marks and symbol begin and end with no blank. -/
theorem tight_core : Text.Tight d.core := by
  have hsymbol := Comparator.tight_of_symbol d.symbol_eq
  constructor
  · rw [core]
    cases d.marks with
    | nil => exact hsymbol.first
    | cons mark marks =>
      intro c hc
      cases mark with
      | caseInsensitive =>
        cases hc
        rfl
      | orNull =>
        cases hc
        rfl
  · rw [core, List.getLast?_append_of_ne_nil _ (Comparator.ne_nil_of_symbol d.symbol_eq)]
    exact hsymbol.last

/-- The blanks of a spelling are those that reading takes off. -/
theorem trim_text : Text.trim d.text.toList = d.core := by
  rw [text, String.toList_ofList]
  exact Text.trim_between d.blank_before d.tight_core d.core_ne_nil d.blank_after

/-- Marks and symbol are read as the operator that they spell. -/
theorem ofChars?_core : ofChars? d.core = some d.operator := by
  rw [ofChars?, core, Modifiers.strip_run d.marks (Comparator.take?_of_symbol d.symbol_eq)]
  show (Comparator.ofSymbol? d.symbol).map _ = _
  rw [Comparator.ofSymbol?_eq_some_iff.2 d.symbol_eq]
  rfl

/-- A spelling is read as the operator that it spells. -/
theorem ofText_text : ofText d.text = .ok d.operator := by
  rw [ofText, trim_text, ofChars?_core]

/-- No text is spelled in two ways. -/
theorem text_injective : Function.Injective text := by
  intro d e h
  have hcore : d.core = e.core := by rw [← d.trim_text, h, e.trim_text]
  obtain ⟨hmarks, hsymbol⟩ := Mark.run_unique (Comparator.take?_of_symbol d.symbol_eq)
    (Comparator.take?_of_symbol e.symbol_eq) hcore
  have hcomparator : d.comparator = e.comparator := by
    have hfound := Comparator.ofSymbol?_eq_some_iff.2 d.symbol_eq
    rw [hsymbol, Comparator.ofSymbol?_eq_some_iff.2 e.symbol_eq] at hfound
    exact (Option.some.inj hfound).symm
  -- behind the blanks at the front the texts agree, so the blanks at both ends do
  have htext : d.before ++ (d.core ++ d.after) = e.before ++ (e.core ++ e.after) :=
    String.ofList_inj.1 h
  have hrest : d.core ++ d.after = e.core ++ e.after := by
    have hdrop := congrArg (List.dropWhile Text.isBlank) htext
    rwa [Text.dropWhile_between d.blank_before d.tight_core d.core_ne_nil,
      Text.dropWhile_between e.blank_before e.tight_core e.core_ne_nil] at hdrop
  have hafter : d.after = e.after := by
    rw [hcore] at hrest
    exact List.append_cancel_left hrest
  have hbefore : d.before = e.before := by
    rw [hrest] at htext
    exact List.append_cancel_right htext
  exact Spelling.ext hbefore hmarks hcomparator hsymbol hafter


end Spelling

/-- A text that is read has a spelling. -/
theorem exists_spelling {text : String} {op : Operator} (h : ofText text = .ok op) :
    ∃ d : Spelling, d.text = text ∧ d.operator = op := by
  have hchars : ofChars? (Text.trim text.toList) = some op := by
    rw [ofText] at h
    split at h
    · next heq =>
      cases h
      exact heq
    · cases h
  obtain ⟨before, after, hbefore, hafter, htext⟩ := Text.exists_trim text.toList
  obtain ⟨marks, hcore, hmodifiers, -⟩ := Modifiers.exists_strip (Text.trim text.toList)
  obtain ⟨k, hk, rfl⟩ := Option.map_eq_some_iff.1 hchars
  let d : Spelling := ⟨before, marks, k, (Modifiers.strip (Text.trim text.toList)).2, after,
    hbefore, Comparator.ofSymbol?_eq_some_iff.1 hk, hafter⟩
  have hd : d.core = Text.trim text.toList := hcore.symm
  refine ⟨d, ?_, ?_⟩
  · rw [Spelling.text, hd]
    show String.ofList (before ++ (Text.trim text.toList ++ after)) = text
    rw [← htext, String.ofList_toList]
  · show Operator.mk k (.ofMarks marks) = _
    rw [hmodifiers]

/-- A refused text is kept as it was given. -/
theorem eq_of_ofText_error {text : String} {e : OperatorTextError} (h : ofText text = .error e) :
    e = ⟨text⟩ := by
  rw [ofText] at h
  split at h
  · cases h
  · cases h
    rfl

/-- The marks that are written in front of the symbol. -/
def writtenMarks (m : Modifiers) : List Mark :=
  (if m.caseInsensitive then [.caseInsensitive] else []) ++ (if m.orNull then [.orNull] else [])

/-- How an operator is written: each of its marks once, and the symbol in lower case. -/
def written (op : Operator) : Spelling where
  before := []
  marks := writtenMarks op.modifiers
  comparator := op.comparator
  symbol := op.comparator.symbol.toList
  after := []
  blank_before := by simp [Text.Blank]
  symbol_eq := op.comparator.symbol_toLower
  blank_after := by simp [Text.Blank]

/-- The spelling that is written is what an operator is rendered as. -/
theorem text_written (op : Operator) : op.written.text = op.render := by
  obtain ⟨k, ⟨caseInsensitive, orNull⟩⟩ := op
  rw [← String.toList_inj, Spelling.text, String.toList_ofList, render, String.toList_append]
  cases caseInsensitive <;> cases orNull <;>
    simp [written, writtenMarks, Spelling.core, Mark.chars, Modifiers.render]

/-- The spelling that is written spells the operator. -/
theorem operator_written (op : Operator) : op.written.operator = op := by
  obtain ⟨k, ⟨caseInsensitive, orNull⟩⟩ := op
  cases caseInsensitive <;> cases orNull <;> rfl

/-- A text is read as an operator exactly if it spells the operator: between blanks, any run of
marks and then the symbol in any letter case, with the modifiers whose marks occur in the run. It
has one spelling at most, and without one it is refused as it was given. What an operator is written
as spells it. Taking marks off one by one comes to an end at every text. -/
theorem reads_spellings :
    (∀ text op, ofText text = .ok op ↔ ∃ d : Spelling, d.text = text ∧ d.operator = op)
    ∧ (∀ d : Spelling, Text.trim d.text.toList = d.core)
    ∧ Function.Injective Spelling.text
    ∧ (∀ text e, ofText text = .error e ↔ e = ⟨text⟩ ∧ ¬ ∃ d : Spelling, d.text = text)
    ∧ (∀ op : Operator, ofText op.render = .ok op)
    ∧ ∀ cs, Modifiers.strip cs ∈ StateTransition.eval Modifiers.round (.plain, cs) := by
  refine ⟨fun text op => ⟨exists_spelling, ?_⟩, Spelling.trim_text, Spelling.text_injective,
    fun text e => ⟨fun h => ⟨eq_of_ofText_error h, ?_⟩, ?_⟩, fun op => ?_,
    Modifiers.strip_mem_eval⟩
  · rintro ⟨d, rfl, rfl⟩
    exact d.ofText_text
  · rintro ⟨d, rfl⟩
    rw [d.ofText_text] at h
    cases h
  · rintro ⟨rfl, hnone⟩
    cases hread : ofText text with
    | ok op =>
      obtain ⟨d, hd, -⟩ := exists_spelling hread
      exact (hnone ⟨d, hd⟩).elim
    | error e => rw [eq_of_ofText_error hread]
  · have hread := op.written.ofText_text
    rwa [text_written, operator_written] at hread

/-- Marks may be repeated, but no blank stands behind them. -/
example : ofText "\u3000#^||#NOT like " = .ok ⟨.notLike, ⟨true, true⟩⟩
    ∧ ofText "# =" = .error ⟨"# ="⟩ := by
  decide

end Operator

end QueryTree
