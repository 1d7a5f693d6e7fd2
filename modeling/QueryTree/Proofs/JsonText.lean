import Mathlib.Tactic.SplitIfs
import QueryTree.Json.Parser

/-! # Reading written JSON

A value whose numbers are integers and whose strings denote texts is read back from its text. Lexer
and parser are taken as one machine, `parse`, which hands each token on as soon as it ends; of each
construct it is then shown which states the machine goes through. What may stand behind a value
matters only to numbers, which end where something else begins.
-/

namespace QueryTree.Json

/-- The value has integers for its numbers, and texts for its strings and keys. -/
inductive Plain : Json → Prop where
  | null : Plain .null
  | boolean (b : Bool) : Plain (.boolean b)
  | int (n : Int) : Plain (.int n)
  | text (s : String) : Plain (.text s)
  | array {items : List Json} : (∀ j ∈ items, Plain j) → Plain (.array items)
  | object {fields : List (Option String × Json)} :
    (∀ f ∈ fields, f.1.isSome) → (∀ f ∈ fields, Plain f.2) → Plain (.object fields)

/-! ## One machine -/

/-- Reads characters from a mode of the lexer on, and each token they end from a state of the parser
on. -/
def parse (state : State) (mode : Mode) : List Char → Option State
  | [] => (finish mode).bind (run state)
  | c :: cs =>
    (stepChar mode c).bind fun (tokens, mode) => (run state tokens).bind (parse · mode cs)

variable {state : State} {frames : List Frame} {rest : List Char}

/-- Tokens are run one list after the other. -/
theorem run_append (state : State) (ts us : List Token) :
    run state (ts ++ us) = (run state ts).bind (run · us) := by
  induction ts generalizing state with
  | nil => rfl
  | cons t ts ih => simp [run, ih, Option.bind_assoc]

/-- The tokens of a text can be parsed while they are read. -/
theorem foldlM_step_run (state : State) (cs : List Char) (seen : List Token) (mode : Mode) :
    ((cs.foldlM Scan.step ⟨seen, mode⟩).bind fun s =>
        (finish s.mode).bind fun last => run state (s.tokens.reverse ++ last))
      = (run state seen.reverse).bind (parse · mode cs) := by
  induction cs generalizing seen mode with
  | nil =>
    simp only [List.foldlM_nil, Option.pure_def, Option.bind_some, run_append, parse]
    -- the last mode is only looked at behind the tokens that are already parsed
    exact Option.bind_comm ..
  | cons c cs ih =>
    rw [List.foldlM_cons, Option.bind_eq_bind, Scan.step]
    cases hstep : stepChar mode c with
    | none => simp [parse, hstep]
    | some next =>
      simp only [Option.map_some, Option.bind_some, parse, hstep]
      rw [ih, List.reverse_append, List.reverse_reverse, run_append, Option.bind_assoc]

/-- A text is read as a value if parsing it ends behind the value. -/
theorem ofChars?_of_parse {cs : List Char} {v : Json}
    (h : parse (.value []) .gap cs = some (.after v [])) : ofChars? cs = some v := by
  have hrun := foldlM_step_run (.value []) cs [] .gap
  rw [List.reverse_nil, run, Option.bind_some, h] at hrun
  obtain ⟨s, hs, hlast⟩ := Option.bind_eq_some_iff.1 hrun
  obtain ⟨last, hlast, hafter⟩ := Option.bind_eq_some_iff.1 hlast
  simp [ofChars?, tokens?, Scan.start, hs, hlast, ofTokens?, hafter]

/-! ## Strings -/

/-- A hexadecimal digit is read as the number it was written for. -/
theorem hexValue?_hexDigit (n : Nat) : hexValue? (hexDigit n) = some (n % 16) := by
  have hdigit : ∀ m < 16, hexValue? (Nat.digitChar m) = some m := by decide
  exact hdigit _ (Nat.mod_lt _ (by decide))

/-- What is read of a written character: the UTF-16 unit of a control character that has no escape
of its own, and else the character. -/
def Piece.ofChar (c : Char) : Piece :=
  if c.toNat < 32 ∧ c ∉ ['\x08', '\x0c', '\n', '\r', '\t'] then .unit c.toNat else .char c

/-- A unit that is no half of a pair is a character of its own. -/
theorem Piece.characters?_unit {u : Nat} (hlead : isLead u = false) (htrail : isTrail u = false)
    (ps : List Piece) : characters? (.unit u :: ps) = (characters? ps).map (Char.ofNat u :: ·) := by
  cases ps with
  | nil => simp [characters?, hlead, htrail]
  | cons p ps => cases p <;> simp [characters?, hlead, htrail]

/-- Pieces made of characters give the characters back. -/
theorem Piece.characters?_ofChar (cs : List Char) : characters? (cs.map ofChar) = some cs := by
  induction cs with
  | nil => rfl
  | cons c cs ih =>
    rw [List.map_cons, ofChar]
    split
    · rename_i hc
      have hlead : isLead c.toNat = false := by simp [isLead]; omega
      have htrail : isTrail c.toNat = false := by simp [isTrail]; omega
      rw [characters?_unit hlead htrail, ih]
      simp
    · rw [characters?, ih, Option.map_some]

/-- Within a string an escaped character is read as the character. -/
theorem parse_escaped (c : Char) (ps : List Piece) :
    parse state (.text ps) (escaped c ++ rest)
      = parse state (.text (Piece.ofChar c :: ps)) rest := by
  unfold escaped
  split_ifs with hquote hslash hb hf hn hr ht hlow
  -- the seven characters with an escape of their own are known, so reading them is a computation
  all_goals try (subst c; rfl)
  · have hunit : Piece.ofChar c = .unit c.toNat := by simp [Piece.ofChar, *]
    have hvalue : 16 * (c.toNat / 16 % 16) + c.toNat % 16 = c.toNat := by omega
    have hzero : hexValue? '0' = some 0 := rfl
    simp [parse, stepChar, hzero, hexValue?_hexDigit, run, hvalue, hunit]
  · have hchar : Piece.ofChar c = .char c := by simp [Piece.ofChar, hlow]
    simp [parse, stepChar, hquote, hslash, hlow, run, hchar]

/-- Within a string escaped characters are read as these characters, in their order. -/
theorem parse_flatMap_escaped (cs : List Char) (ps : List Piece) :
    parse state (.text ps) (cs.flatMap escaped ++ rest)
      = parse state (.text ((cs.map Piece.ofChar).reverse ++ ps)) rest := by
  induction cs generalizing ps with
  | nil => rfl
  | cons c cs ih => simp [parse_escaped, ih]

/-- A written string is one token. -/
theorem parse_stringChars (s : String) :
    parse state .gap (stringChars (some s) ++ rest)
      = (run state [.string (some s)]).bind (parse · .gap rest) := by
  have hopen (cs : List Char) : parse state .gap ('"' :: cs) = parse state (.text []) cs := rfl
  have hclose (ps : List Piece) : parse state (.text ps) ('"' :: rest)
      = (run state [.string ((Piece.characters? ps.reverse).map String.ofList)]).bind
        (parse · .gap rest) := rfl
  simp only [stringChars, List.cons_append, List.append_assoc, hopen, parse_flatMap_escaped,
    List.nil_append, hclose, List.append_nil, List.reverse_reverse, Piece.characters?_ofChar,
    Option.map_some, String.ofList_toList]

/-! ## Integers -/

/-- What follows a value in a written text. -/
def Closes : List Char → Prop
  | [] => True
  | c :: _ => c ∈ [',', ']', '\x7d']

/-- The digits of a number start with a zero only if there are no others. -/
theorem toDigits_shape (n : Nat) : Nat.toDigits 10 n = ['0'] ∨
    ∃ d ds, 0 < d ∧ d < 10 ∧ Nat.toDigits 10 n = Nat.digitChar d :: ds := by
  induction n using Nat.strongRecOn with
  | ind n ih =>
    rw [Nat.toDigits_eq_if (by decide)]
    split_ifs with hn
    · by_cases hzero : n = 0
      · exact .inl (by rw [hzero]; rfl)
      · exact .inr ⟨n, [], by omega, hn, rfl⟩
    · right
      rcases ih (n / 10) (by omega) with hzero | ⟨d, ds, hpos, hd, heq⟩
      · -- the leading part is a number by itself, and not zero
        have hval := Nat.ofDigitChars_ten_toDigits (n := n / 10)
        rw [hzero] at hval
        have hnil : Nat.ofDigitChars 10 ['0'] 0 = 0 := by decide
        omega
      · exact ⟨d, ds ++ [Nat.digitChar (n % 10)], hpos, hd, by rw [heq]; rfl⟩

/-- The digits of a whole number are read into its numeral. -/
theorem parse_digits {ds : List Char} (h : ∀ c ∈ ds, c.isDigit) (n : Numeral) :
    parse state (.number .whole n) (ds ++ rest)
      = parse state (.number .whole { n with whole := n.whole ++ ds }) rest := by
  induction ds generalizing n with
  | nil => simp
  | cons d ds ih =>
    have hd := h d List.mem_cons_self
    have hds := fun c hc => h c (List.mem_cons_of_mem d hc)
    simp [parse, stepChar, stepNumber, hd, run, Numeral.pushWhole, ih hds]

/-- A number ends where a value may end. -/
theorem parse_number_end {phase : Phase} (hphase : phase = .zero ∨ phase = .whole)
    (h : Closes rest) (n : Numeral) :
    parse state (.number phase n) rest = (run state [.number n]).bind (parse · .gap rest) := by
  cases rest with
  | nil => rcases hphase with rfl | rfl <;> simp [parse, finish, run]
  | cons c cs =>
    have hstep : ∃ t, startToken c = some ([t], .gap) ∧
        stepNumber n c phase = some ([.number n, t], .gap) := by
      simp only [Closes, List.mem_cons, List.not_mem_nil, or_false] at h
      rcases hphase with rfl | rfl <;> rcases h with rfl | rfl | rfl <;> exact ⟨_, rfl, rfl⟩
    obtain ⟨t, hstart, hnumber⟩ := hstep
    simp only [parse, stepChar, hstart, hnumber, Option.bind_some]
    rw [← List.singleton_append, run_append, Option.bind_assoc]

/-- The digits of a number are read up to its end, whatever sign is read before them. -/
theorem parse_toDigits (h : Closes rest) (size : Nat) {mode : Mode} {n : Numeral}
    (hwhole : n.whole = [])
    (hzero : stepChar mode '0' = some ([], .number .zero (n.pushWhole '0')))
    (hdigit : ∀ d, 0 < d → d < 10 → stepChar mode (Nat.digitChar d)
      = some ([], .number .whole (n.pushWhole (Nat.digitChar d)))) :
    parse state mode (Nat.toDigits 10 size ++ rest)
      = (run state [.number { n with whole := Nat.toDigits 10 size }]).bind
        (parse · .gap rest) := by
  rcases toDigits_shape size with heq | ⟨d, ds, hpos, hd, heq⟩
  · rw [heq, List.singleton_append, parse, hzero]
    simp [run, parse_number_end (.inl rfl) h, Numeral.pushWhole, hwhole]
  · have hds : ∀ c ∈ ds, c.isDigit := fun c hc =>
      Nat.isDigit_of_mem_toDigits (by decide) (by decide) (heq ▸ List.mem_cons_of_mem _ hc)
    rw [heq, List.cons_append, parse, hdigit d hpos hd]
    simp [run, parse_digits hds, parse_number_end (.inr rfl) h, Numeral.pushWhole, hwhole]

/-- A written integer is one token. -/
theorem parse_ofInt (h : Closes rest) (n : Int) :
    parse state .gap ((Numeral.ofInt n).chars ++ rest)
      = (run state [.number (.ofInt n)]).bind (parse · .gap rest) := by
  have hsign (cs : List Char) :
      parse state .gap ('-' :: cs) = parse state (.number .sign (.start true)) cs := rfl
  have hdigit : ∀ d < 10, 0 < d → stepChar .gap (Nat.digitChar d)
        = some ([], .number .whole ((Numeral.start false).pushWhole (Nat.digitChar d)))
      ∧ stepChar (.number .sign (.start true)) (Nat.digitChar d)
        = some ([], .number .whole ((Numeral.start true).pushWhole (Nat.digitChar d))) := by
    decide
  by_cases hneg : n < 0
  · have hchars : (Numeral.ofInt n).chars = '-' :: Nat.toDigits 10 n.natAbs := by
      simp [Numeral.chars, Numeral.ofInt, hneg]
    rw [hchars, List.cons_append, hsign, parse_toDigits h n.natAbs (n := .start true) rfl rfl
      fun d hpos hd => (hdigit d hd hpos).2]
    simp [Numeral.start, Numeral.ofInt, hneg]
  · have hchars : (Numeral.ofInt n).chars = Nat.toDigits 10 n.natAbs := by
      simp [Numeral.chars, Numeral.ofInt, hneg]
    rw [hchars, parse_toDigits h n.natAbs (n := .start false) rfl rfl
      fun d hpos hd => (hdigit d hd hpos).1]
    simp [Numeral.start, Numeral.ofInt, hneg]

/-! ## Values -/

/-- The parser waits for a value in the frames. Behind an open bracket it also waits for the end of
the array. -/
def State.Awaits (state : State) (frames : List Frame) : Prop :=
  state = .value frames ∨ ∃ outer, state = .item outer ∧ frames = .array [] :: outer

/-- Where a value is awaited, every token but a closing bracket starts one. -/
theorem State.Awaits.stepToken_eq (h : state.Awaits frames) {t : Token} (ht : t ≠ .closeArray) :
    stepToken state t = startValue frames t := by
  rcases h with rfl | ⟨outer, rfl, rfl⟩
  · rfl
  · cases t <;> first | rfl | exact absurd rfl ht

/-- Behind an item comes a comma, or the bracket that ends the array. -/
theorem closes_writeItems (xs : List Json) : Closes (writeItems xs rest) := by
  cases xs <;> simp [writeItems, Closes]

/-- Behind a field comes a comma, or the bracket that ends the object. -/
theorem closes_writeFields (fields : List (Option String × Json)) :
    Closes (writeFields fields rest) := by
  cases fields <;> simp [writeFields, Closes]

/-- The value is read from its text wherever a value may stand. -/
def Reads (j : Json) : Prop :=
  ∀ {state : State} {frames : List Frame} {rest : List Char}, state.Awaits frames → Closes rest →
    parse state .gap (write j rest) = parse (.after j frames) .gap rest

/-- Written items are read into the array behind those seen. -/
theorem parse_writeItems {xs : List Json} (h : ∀ x ∈ xs, Reads x) (v : Json) (seen : List Json) :
    parse (.after v (.array seen :: frames)) .gap (writeItems xs rest)
      = parse (.after (.array (seen.reverse ++ v :: xs)) frames) .gap rest := by
  induction xs generalizing v seen with
  | nil =>
    have hclose : parse (.after v (.array seen :: frames)) .gap (writeItems [] rest)
        = parse (.after (.array (v :: seen).reverse) frames) .gap rest := rfl
    rw [hclose, List.reverse_cons]
  | cons x xs ih =>
    have hcomma : parse (.after v (.array seen :: frames)) .gap (writeItems (x :: xs) rest)
        = parse (.value (.array (v :: seen) :: frames)) .gap (write x (writeItems xs rest)) := rfl
    obtain ⟨hx, hxs⟩ := List.forall_mem_cons.1 h
    rw [hcomma, hx (.inl rfl) (closes_writeItems xs), ih hxs]
    simp

/-- The key of a field is read, and its value is awaited. -/
theorem parse_key {key : Option String} (h : key.isSome) {before : State}
    {seen : List (Option String × Json)}
    (hkey : stepToken before (.string key) = some (.colon seen key frames)) :
    parse before .gap (stringChars key ++ ':' :: rest)
      = parse (.value (.object seen key :: frames)) .gap rest := by
  obtain ⟨key, rfl⟩ := Option.isSome_iff_exists.1 h
  rw [parse_stringChars, run, hkey]
  rfl

/-- Written fields are read into the object behind those seen. -/
theorem parse_writeFields {fields : List (Option String × Json)} (hkeys : ∀ f ∈ fields, f.1.isSome)
    (h : ∀ f ∈ fields, Reads f.2) (v : Json) (key : Option String)
    (seen : List (Option String × Json)) :
    parse (.after v (.object seen key :: frames)) .gap (writeFields fields rest)
      = parse (.after (.object (seen.reverse ++ (key, v) :: fields)) frames) .gap rest := by
  induction fields generalizing v key seen with
  | nil =>
    have hclose : parse (.after v (.object seen key :: frames)) .gap (writeFields [] rest)
        = parse (.after (.object ((key, v) :: seen).reverse) frames) .gap rest := rfl
    rw [hclose, List.reverse_cons]
  | cons f fields ih =>
    obtain ⟨name, x⟩ := f
    obtain ⟨hname, hkeys⟩ := List.forall_mem_cons.1 hkeys
    obtain ⟨(hx : Reads x), hfields⟩ := List.forall_mem_cons.1 h
    have hcomma (cs : List Char) : parse (.after v (.object seen key :: frames)) .gap (',' :: cs)
        = parse (.key ((key, v) :: seen) frames) .gap cs := rfl
    rw [writeFields, hcomma, parse_key hname rfl, hx (.inl rfl) (closes_writeFields fields),
      ih hkeys hfields]
    simp

/-- A value that is written as one token is read from it. -/
theorem reads_of_token {j : Json} {t : Token} (ht : t ≠ .closeArray)
    (hstart : ∀ frames, startValue frames t = some (.after j frames))
    (h : ∀ {state : State} {rest : List Char}, Closes rest →
      parse state .gap (write j rest) = (run state [t]).bind (parse · .gap rest)) : Reads j := by
  intro state frames rest hstate hrest
  rw [h hrest, run, hstate.stepToken_eq ht, hstart]
  rfl

/-- A plain value is read back from its text. -/
theorem Plain.reads {j : Json} (h : j.Plain) : Reads j := by
  induction h with
  | null => exact reads_of_token (t := .null) (by simp) (fun _ => rfl) fun _ => rfl
  | boolean b =>
    refine reads_of_token (t := .boolean b) (by simp) (fun _ => rfl) fun _ => ?_
    cases b <;> rfl
  | int n => exact reads_of_token (by simp) (fun _ => rfl) fun hrest => parse_ofInt hrest n
  | text s => exact reads_of_token (by simp) (fun _ => rfl) fun _ => parse_stringChars s
  | @array items _ ih =>
    intro state frames rest hstate _
    have hopen (cs : List Char) : parse state .gap ('[' :: cs) = parse (.item frames) .gap cs := by
      change (run state [.openArray]).bind (parse · .gap cs) = _
      rw [run, hstate.stepToken_eq (by simp)]
      rfl
    cases items with
    | nil =>
      rw [write, hopen]
      rfl
    | cons x xs =>
      obtain ⟨hx, hxs⟩ := List.forall_mem_cons.1 ih
      -- the first item is read where the array might also end, the others behind a comma
      rw [write, hopen, hx (.inr ⟨frames, rfl, rfl⟩) (closes_writeItems xs), parse_writeItems hxs]
      rfl
  | @object fields hkeys _ ih =>
    intro state frames rest hstate _
    have hopen (cs : List Char) :
        parse state .gap ('\x7b' :: cs) = parse (.field frames) .gap cs := by
      change (run state [.openObject]).bind (parse · .gap cs) = _
      rw [run, hstate.stepToken_eq (by simp)]
      rfl
    cases fields with
    | nil =>
      rw [write, hopen]
      rfl
    | cons f fields =>
      obtain ⟨name, x⟩ := f
      obtain ⟨hname, hkeys⟩ := List.forall_mem_cons.1 hkeys
      obtain ⟨(hx : Reads x), hfields⟩ := List.forall_mem_cons.1 ih
      rw [write, hopen, parse_key hname rfl, hx (.inl rfl) (closes_writeFields fields),
        parse_writeFields hkeys hfields]
      rfl

/-- A plain value is read back from its text. -/
theorem Plain.ofText?_render {j : Json} (h : j.Plain) : ofText? j.render = some j := by
  rw [ofText?, render, String.toList_ofList]
  exact ofChars?_of_parse (h.reads (.inl rfl) trivial)

end QueryTree.Json
