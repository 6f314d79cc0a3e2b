import Vernacular.Proofs.Json.Leaves

/-!
# Documents are read back

A document is written in a style: with blanks of some kind in front of items, closing brackets and values of fields. A
well-formed document is read back from what is written of it in any style, and compact and pretty texts are two of them.

- `Json.value_write`: reading, by induction on the document, if there are calls enough for it (`Json.calls`);
- `Json.calls_le`: a text allows for as many calls as its document needs;
- `Json.toList_compact`, `Json.toList_prettyAt`: the two styles;
- `Json.read?_compact`, `Json.read?_pretty`: so each text stands for one document.
-/

namespace Vernacular.Json

/-! ## Well-formed documents -/

/-- A name that is written as it is. -/
def Plain (name : String) : Prop := escape name = name

instance (name : String) : Decidable (Plain name) := inferInstanceAs (Decidable (_ = _))

/-- Neither an array nor an object. -/
def isLeaf : Json → Bool
  | array _ | object _ => false
  | _ => true

mutual

/-- Numbers and strings are written as they should be, and fields have some of the given names. -/
def WellFormed (names : List String) : Json → Prop
  | null | bool _ => True
  | number w => IsNumeral w.toList
  | string w => Body w.toList
  | array items => WellFormedItems names items
  | object fields => WellFormedFields names fields

def WellFormedItems (names : List String) : List Json → Prop
  | [] => True
  | j :: js => j.WellFormed names ∧ WellFormedItems names js

def WellFormedFields (names : List String) : List (String × Json) → Prop
  | [] => True
  | (name, j) :: fs => name ∈ names ∧ j.WellFormed names ∧ WellFormedFields names fs

end

/-! ## Styles -/

/-- The indentation of a level. -/
def indentation (level : Nat) : String := String.ofList (List.replicate (2 * level) ' ')

theorem indentation_append (level : Nat) : indentation level ++ "  " = indentation (level + 1) := by
  rw [indentation, indentation, Nat.mul_succ, ← List.replicate_append_replicate, String.ofList_append]
  rfl

/-- Where blanks are written. -/
structure Style where
  /-- In front of an item or a closing bracket, so many levels inside. -/
  gap : Nat → List Char
  /-- Between a colon and the value behind it. -/
  afterColon : List Char
  gap_blank : ∀ level, ∀ c ∈ gap level, isBlank c = true
  afterColon_blank : ∀ c ∈ afterColon, isBlank c = true

namespace Style

/-- No blanks. -/
def compact : Style where
  gap _ := []
  afterColon := []
  gap_blank := by simp
  afterColon_blank := by simp

/-- One item to a line. -/
def pretty : Style where
  gap level := '\n' :: (indentation level).toList
  afterColon := [' ']
  gap_blank level c hc := by
    rcases List.mem_cons.mp hc with rfl | hc
    · rfl
    · rw [indentation, String.toList_ofList] at hc
      rw [List.eq_of_mem_replicate hc]
      rfl
  afterColon_blank := List.forall_mem_singleton.mpr rfl

/-- Writes the name of a field in front of its value. -/
def field (style : Style) (name : String) (value : List Char) : List Char :=
  '"' :: (name.toList ++ '"' :: ':' :: (style.afterColon ++ value))

mutual

/-- Writes a document in front of a text. -/
def write (style : Style) (level : Nat) : Json → List Char → List Char
  | .array [], rest => '[' :: ']' :: rest
  | .array (j :: js), rest =>
    '[' :: (style.gap (level + 1) ++
      style.write (level + 1) j (style.writeItems (level + 1) js (style.gap level ++ ']' :: rest)))
  | .object [], rest => '{' :: '}' :: rest
  | .object ((name, j) :: fs), rest =>
    '{' :: (style.gap (level + 1) ++ style.field name
      (style.write (level + 1) j (style.writeFields (level + 1) fs (style.gap level ++ '}' :: rest))))
  | leaf, rest => leaf.atom.toList ++ rest

/-- Writes the items behind the first one. -/
def writeItems (style : Style) (level : Nat) : List Json → List Char → List Char
  | [], rest => rest
  | j :: js, rest => ',' :: (style.gap level ++ style.write level j (style.writeItems level js rest))

/-- Writes the fields behind the first one. -/
def writeFields (style : Style) (level : Nat) : List (String × Json) → List Char → List Char
  | [], rest => rest
  | (name, j) :: fs, rest =>
    ',' :: (style.gap level ++ style.field name (style.write level j (style.writeFields level fs rest)))

end

end Style

/-! ## Calls -/

mutual

/-- How many calls inside one another it takes to read a document. -/
def calls : Json → Nat
  | array items => 1 + callsItems items
  | object fields => 1 + callsFields fields
  | _ => 1

def callsItems : List Json → Nat
  | [] => 0
  | j :: js => 1 + max j.calls (callsItems js)

def callsFields : List (String × Json) → Nat
  | [] => 0
  | (_, j) :: fs => 1 + max j.calls (callsFields fs)

end

section Reading

variable {names : List String} {style : Style} {level fuel : Nat} {rest : List Char}

/-- A leaf is written as it is, in every style. -/
theorem Style.write_leaf {j : Json} (h : j.isLeaf = true) : style.write level j rest = j.atom.toList ++ rest := by
  cases j with
  | null => rfl
  | bool b => rfl
  | number w => rfl
  | string w => rfl
  | array items => cases h
  | object fields => cases h

theorem calls_leaf {j : Json} (h : j.isLeaf = true) : j.calls = 1 := by
  cases j with
  | null => rfl
  | bool b => rfl
  | number w => rfl
  | string w => rfl
  | array items => cases h
  | object fields => cases h

/-- A leaf has at least one character, so that reading it uses some of the text. -/
theorem atom_pos {j : Json} (hj : j.WellFormed names) (h : j.isLeaf = true) : 0 < j.atom.toList.length := by
  cases j with
  | null => decide
  | bool b => cases b <;> decide
  | number w =>
    obtain ⟨⟨d, ds, hw, -⟩, -⟩ := hj
    rw [atom, hw]
    exact Nat.succ_pos _
  | string w => simp [atom, quote]
  | array items => cases h
  | object fields => cases h

mutual

/-- Every call reads a character, or two do. -/
theorem calls_le (style : Style) : ∀ (level : Nat) (j : Json) (rest : List Char), j.WellFormed names →
    j.calls + 2 * rest.length ≤ 2 * (style.write level j rest).length
  | level, .array [], rest, _ => by
    rw [calls, callsItems, Style.write, List.length_cons, List.length_cons]
    omega
  | level, .array (j :: js), rest, h => by
    obtain ⟨hj, hjs⟩ := h
    have hfirst := calls_le style (level + 1) j (style.writeItems (level + 1) js (style.gap level ++ ']' :: rest)) hj
    have hmore := callsItems_le style (level + 1) js (style.gap level ++ ']' :: rest) hjs
    rw [calls, callsItems, Style.write]
    simp only [List.length_cons, List.length_append] at hfirst hmore ⊢
    omega
  | level, .object [], rest, _ => by
    rw [calls, callsFields, Style.write, List.length_cons, List.length_cons]
    omega
  | level, .object ((name, j) :: fs), rest, h => by
    obtain ⟨-, hj, hfs⟩ := h
    have hfirst := calls_le style (level + 1) j (style.writeFields (level + 1) fs (style.gap level ++ '}' :: rest)) hj
    have hmore := callsFields_le style (level + 1) fs (style.gap level ++ '}' :: rest) hfs
    rw [calls, callsFields, Style.write, Style.field]
    simp only [List.length_cons, List.length_append] at hfirst hmore ⊢
    omega
  | level, .null, rest, h | level, .bool _, rest, h | level, .number _, rest, h | level, .string _, rest, h => by
    have hpos := atom_pos h rfl
    rw [calls_leaf rfl, Style.write_leaf rfl, List.length_append]
    omega

/-- Items of an array. -/
theorem callsItems_le (style : Style) : ∀ (level : Nat) (js : List Json) (rest : List Char), WellFormedItems names js →
    callsItems js + 2 * rest.length ≤ 2 * (style.writeItems level js rest).length
  | level, [], rest, _ => by
    rw [callsItems, Style.writeItems]
    omega
  | level, j :: js, rest, h => by
    obtain ⟨hj, hjs⟩ := h
    have hfirst := calls_le style level j (style.writeItems level js rest) hj
    have hmore := callsItems_le style level js rest hjs
    rw [callsItems, Style.writeItems]
    simp only [List.length_cons, List.length_append]
    omega

/-- Fields of an object. -/
theorem callsFields_le (style : Style) : ∀ (level : Nat) (fs : List (String × Json)) (rest : List Char),
    WellFormedFields names fs → callsFields fs + 2 * rest.length ≤ 2 * (style.writeFields level fs rest).length
  | level, [], rest, _ => by
    rw [callsFields, Style.writeFields]
    omega
  | level, (name, j) :: fs, rest, h => by
    obtain ⟨-, hj, hfs⟩ := h
    have hfirst := calls_le style level j (style.writeFields level fs rest) hj
    have hmore := callsFields_le style level fs rest hfs
    rw [callsFields, Style.writeFields, Style.field]
    simp only [List.length_cons, List.length_append]
    omega

end

/-- Blanks are skipped, however many. -/
theorem skipBlanks_append {blanks : List Char} (h : ∀ c ∈ blanks, isBlank c = true) (cs : List Char) :
    skipBlanks (blanks ++ cs) = skipBlanks cs :=
  List.dropWhile_append_of_pos h

theorem skipBlanks_cons {c : Char} (h : isBlank c = false) (cs : List Char) : skipBlanks (c :: cs) = c :: cs :=
  List.dropWhile_cons_of_neg (by simp [h])

/-- Blanks in front of a value do not matter. -/
theorem value_blanks {blanks : List Char} (h : ∀ c ∈ blanks, isBlank c = true) (fuel : Nat) (cs : List Char) :
    value fuel (blanks ++ cs) = value fuel cs := by
  cases fuel with
  | zero => rfl
  | succ fuel => rw [value, value, skipBlanks_append h]

theorem isBlank_of_isDigit {c : Char} (h : c.isDigit = true) : isBlank c = false := by
  refine Bool.eq_false_iff.mpr fun hblank => ?_
  simp only [isBlank, Bool.or_eq_true, beq_iff_eq] at hblank
  rcases hblank with ((rfl | rfl) | rfl) | rfl <;> exact absurd h (by decide)

/-- A leaf is read back, if what follows does not go on it. -/
theorem value_leaf {j : Json} (hj : j.WellFormed names) (h : j.isLeaf = true) (hrest : Delimited rest) :
    value (fuel + 1) (j.atom.toList ++ rest) = some (j, rest) := by
  cases j with
  | null => rfl
  | bool b => cases b <;> rfl
  | number w =>
    obtain ⟨⟨d, ds, hw, hd⟩, hnumeral⟩ := hj
    have hread := hnumeral rest hrest
    have hne (c : Char) (hc : c.isDigit = false) : d ≠ c := fun h => by simp [h, hc] at hd
    rw [atom]
    rw [hw, List.cons_append] at hread ⊢
    rw [value, skipBlanks_cons (isBlank_of_isDigit hd)]
    simp [leaf, hne, hread, ← hw]
  | string w =>
    have hread := hj rest
    rw [atom]
    simp [quote, value, skipBlanks_cons, isBlank, leaf, hread]
  | array items => cases h
  | object fields => cases h

/-- What is written begins with a character that is neither a blank nor a bracket that closes. -/
theorem write_head (style : Style) {j : Json} (hj : j.WellFormed names) (level : Nat) (rest : List Char) :
    ∃ c cs, style.write level j rest = c :: cs ∧ isBlank c = false ∧ c ≠ ']' := by
  cases j with
  | null => exact ⟨'n', _, rfl, rfl, by decide⟩
  | bool b =>
    cases b with
    | true => exact ⟨'t', _, rfl, rfl, by decide⟩
    | false => exact ⟨'f', _, rfl, rfl, by decide⟩
  | number w =>
    obtain ⟨⟨d, ds, hw, hd⟩, -⟩ := hj
    refine ⟨d, ds ++ rest, ?_, isBlank_of_isDigit hd, ?_⟩
    · rw [Style.write_leaf rfl, atom, hw]
      rfl
    · rintro rfl
      exact absurd hd (by decide)
  | string w =>
    refine ⟨'"', w.toList ++ '"' :: rest, ?_, rfl, by decide⟩
    rw [Style.write_leaf rfl, atom, quote]
    simp
  | array items => cases items <;> exact ⟨'[', _, rfl, rfl, by decide⟩
  | object fields => cases fields <;> exact ⟨'{', _, rfl, rfl, by decide⟩

theorem delimited_cons {c : Char} (h : c ∈ delimiters) (cs : List Char) : Delimited (c :: cs) := by
  rintro _ ⟨⟩
  exact h

/-- Blanks may stand in front of what delimits a value. -/
theorem delimited_gap (h : Delimited rest) : Delimited (style.gap level ++ rest) := by
  cases hgap : style.gap level with
  | nil => exact h
  | cons c cs =>
    have hblank := style.gap_blank level c (hgap ▸ List.mem_cons_self)
    simp only [isBlank, Bool.or_eq_true, beq_iff_eq] at hblank
    refine delimited_cons ?_ _
    rcases hblank with ((rfl | rfl) | rfl) | rfl <;> decide

/-- Behind an item there is a comma or what follows the items. -/
theorem delimited_writeItems (style : Style) (level : Nat) (js : List Json) (h : Delimited rest) :
    Delimited (style.writeItems level js rest) := by
  cases js with
  | nil => exact h
  | cons j js => exact delimited_cons (by decide) _

theorem delimited_writeFields (style : Style) (level : Nat) (fs : List (String × Json)) (h : Delimited rest) :
    Delimited (style.writeFields level fs rest) := by
  cases fs with
  | nil => exact h
  | cons f fs => exact delimited_cons (by decide) _

theorem calls_pos (j : Json) : 0 < j.calls := by
  cases j <;> simp only [calls] <;> omega

/-- A document is read from what is written of it. -/
def ReadsBack (style : Style) (level : Nat) (j : Json) : Prop :=
  ∀ fuel rest, Delimited rest → j.calls ≤ fuel → value fuel (style.write level j rest) = some (j, rest)

/-- A name without special characters is the inside of its string. -/
theorem body_plain {name : String} (h : Plain name) (rest : List Char) :
    stringBody (name.toList ++ '"' :: rest) = some (name.toList, rest) := by
  have hbody := body_escape name rest
  rwa [h] at hbody

mutual

/-- A document that is written in any style is read back, if there is fuel enough. By induction on the document;
`calls` counts the fuel that reading it takes. -/
theorem value_write (hnames : ∀ name ∈ names, Plain name) (style : Style) : ∀ (level : Nat) (j : Json),
    j.WellFormed names → ReadsBack style level j
  | level, j, _, 0, rest, _, hfuel => absurd hfuel (Nat.not_le.mpr j.calls_pos)
  | level, .array [], _, fuel + 1, rest, _, _ => rfl
  | level, .array (j :: js), ⟨hj, hjs⟩, fuel + 1, rest, _, hfuel => by
    have hfirst := value_write hnames style (level + 1) j hj
    have hitems := items_write hnames style (level + 1) level js j hfirst hjs fuel [] rest (by simp)
      (by rw [calls] at hfuel; omega)
    -- The first item is no closing bracket.
    obtain ⟨c, cs, hcs, hblank, hne⟩ :=
      write_head style hj (level + 1) (style.writeItems (level + 1) js (style.gap level ++ ']' :: rest))
    rw [List.nil_append, hcs] at hitems
    rw [Style.write, value, skipBlanks_cons rfl]
    simp only [skipBlanks_append (style.gap_blank _), hcs, skipBlanks_cons hblank]
    simp [hne, hitems]
  | level, .object [], _, fuel + 1, rest, _, _ => rfl
  | level, .object ((name, j) :: fs), ⟨hname, hj, hfs⟩, fuel + 1, rest, _, hfuel => by
    have hfirst := value_write hnames style (level + 1) j hj
    have hfields := fields_write hnames style (level + 1) level fs j hfirst hfs fuel [] rest hname (by simp)
      (by rw [calls] at hfuel; omega)
    rw [List.nil_append, Style.field] at hfields
    rw [Style.write, value, skipBlanks_cons rfl]
    simp only [skipBlanks_append (style.gap_blank _), Style.field, skipBlanks_cons (c := '"') rfl]
    simp [hfields]
  | level, .null, h, fuel + 1, rest, hrest, _ | level, .bool _, h, fuel + 1, rest, hrest, _
  | level, .number _, h, fuel + 1, rest, hrest, _ | level, .string _, h, fuel + 1, rest, hrest, _ => by
    rw [Style.write_leaf rfl, value_leaf h rfl hrest]

/-- Items of an array, each read back before the next one. -/
theorem items_write (hnames : ∀ name ∈ names, Plain name) (style : Style) (level outer : Nat) :
    ∀ (js : List Json) (j : Json), ReadsBack style level j →
    WellFormedItems names js → ∀ (fuel : Nat) (blanks rest : List Char), (∀ c ∈ blanks, isBlank c = true) →
      callsItems (j :: js) ≤ fuel →
      items fuel (blanks ++ style.write level j (style.writeItems level js (style.gap outer ++ ']' :: rest))) =
        some (j :: js, rest)
  | js, j, hj, hjs, 0, blanks, rest, hblanks, hfuel => by
    rw [callsItems] at hfuel
    omega
  | [], j, hj, _, fuel + 1, blanks, rest, hblanks, hfuel => by
    have hclose : Delimited (style.gap outer ++ ']' :: rest) := delimited_gap (delimited_cons (by decide) rest)
    have hvalue := hj fuel _ hclose (by rw [callsItems] at hfuel; omega)
    rw [Style.writeItems, items, value_blanks hblanks, hvalue]
    simp [skipBlanks_append (style.gap_blank _), skipBlanks_cons (c := ']') rfl]
  | k :: js, j, hj, ⟨hk, hjs⟩, fuel + 1, blanks, rest, hblanks, hfuel => by
    rw [callsItems] at hfuel
    have hclose : Delimited (style.gap outer ++ ']' :: rest) := delimited_gap (delimited_cons (by decide) rest)
    have hvalue := hj fuel _ (delimited_writeItems style level (k :: js) hclose) (by omega)
    have hnext := value_write hnames style level k hk
    have hitems := items_write hnames style level outer js k hnext hjs fuel (style.gap level) rest
      (style.gap_blank level)
      (by omega)
    rw [items, value_blanks hblanks, hvalue]
    simp [Style.writeItems, skipBlanks_cons (c := ',') rfl, hitems]

/-- Fields of an object, each with its name. -/
theorem fields_write (hnames : ∀ name ∈ names, Plain name) (style : Style) (level outer : Nat) :
    ∀ (fs : List (String × Json)) (j : Json), ReadsBack style level j →
    WellFormedFields names fs → ∀ {name : String} (fuel : Nat) (blanks rest : List Char), name ∈ names →
      (∀ c ∈ blanks, isBlank c = true) → callsFields ((name, j) :: fs) ≤ fuel →
      fields fuel (blanks ++ style.field name
        (style.write level j (style.writeFields level fs (style.gap outer ++ '}' :: rest)))) =
          some ((name, j) :: fs, rest)
  | fs, j, hj, hfs, name, 0, blanks, rest, hname, hblanks, hfuel => by
    rw [callsFields] at hfuel
    omega
  | [], j, hj, _, name, fuel + 1, blanks, rest, hname, hblanks, hfuel => by
    have hclose : Delimited (style.gap outer ++ '}' :: rest) := delimited_gap (delimited_cons (by decide) rest)
    have hvalue := hj fuel _ hclose (by rw [callsFields] at hfuel; omega)
    rw [Style.writeFields, fields, skipBlanks_append hblanks, Style.field, skipBlanks_cons rfl]
    simp [body_plain (hnames name hname), skipBlanks_cons (c := ':') rfl, value_blanks style.afterColon_blank, hvalue,
      skipBlanks_append (style.gap_blank _), skipBlanks_cons (c := '}') rfl]
  | (name', k) :: fs, j, hj, ⟨hname', hk, hfs⟩, name, fuel + 1, blanks, rest, hname, hblanks, hfuel => by
    rw [callsFields] at hfuel
    have hclose : Delimited (style.gap outer ++ '}' :: rest) := delimited_gap (delimited_cons (by decide) rest)
    have hvalue := hj fuel _ (delimited_writeFields style level ((name', k) :: fs) hclose) (by omega)
    have hnext := value_write hnames style level k hk
    have hfields := fields_write hnames style level outer fs k hnext hfs fuel (style.gap level) rest hname'
      (style.gap_blank level) (by omega)
    rw [Style.writeFields] at hvalue ⊢
    rw [fields, skipBlanks_append hblanks, Style.field, skipBlanks_cons rfl]
    simp [body_plain (hnames name hname), skipBlanks_cons (c := ':') rfl, value_blanks style.afterColon_blank, hvalue,
      skipBlanks_cons (c := ',') rfl, hfields]

end

/-- A text that is written of a document in some style is read as the document. -/
theorem read?_of_write (hnames : ∀ name ∈ names, Plain name) {j : Json} {text : String} (hj : j.WellFormed names)
    (h : text.toList = style.write 0 j []) : read? text = some j := by
  have hcalls := calls_le style 0 j [] hj
  have hvalue := value_write hnames style 0 j hj (2 * (style.write 0 j []).length + 2) []
    (by simp [Delimited]) (by omega)
  rw [read?, h, hvalue]
  rfl

end Reading

/-! ## The two styles -/

/-- A separated list, from its second item on. -/
theorem intercalate_cons (separator first : List Char) (more : List (List Char)) :
    separator.intercalate (first :: more) = first ++ more.flatMap (separator ++ ·) := by
  induction more generalizing first with
  | nil => simp
  | cons second more ih => simp [ih]

mutual

/-- The compact text is what the compact style writes. By induction on the document. -/
theorem toList_compact (level : Nat) : ∀ (j : Json) (rest : List Char),
    j.compact.toList ++ rest = Style.compact.write level j rest
  | .array [], rest => rfl
  | .array (j :: js), rest => by
    rw [Style.write, ← toList_compact (level + 1) j, ← toList_compactItems (level + 1) js]
    simp [compact, compactItems, intercalate_cons, List.flatMap_map, Style.compact]
  | .object [], rest => rfl
  | .object ((name, j) :: fs), rest => by
    rw [Style.write, Style.field, ← toList_compact (level + 1) j, ← toList_compactFields (level + 1) fs]
    simp [compact, compactFields, intercalate_cons, List.flatMap_map, Style.compact, quote]
  | .null, rest | .bool _, rest | .number _, rest | .string _, rest => by rw [Style.write_leaf rfl, compact] <;> simp

theorem toList_compactItems (level : Nat) : ∀ (js : List Json) (rest : List Char),
    ((compactItems js).flatMap fun s => ',' :: s.toList) ++ rest = Style.compact.writeItems level js rest
  | [], rest => rfl
  | j :: js, rest => by
    rw [Style.writeItems, ← toList_compact level j, ← toList_compactItems level js]
    simp [compactItems, Style.compact]

theorem toList_compactFields (level : Nat) : ∀ (fs : List (String × Json)) (rest : List Char),
    ((compactFields fs).flatMap fun s => ',' :: s.toList) ++ rest = Style.compact.writeFields level fs rest
  | [], rest => rfl
  | (name, j) :: fs, rest => by
    rw [Style.writeFields, Style.field, ← toList_compact level j, ← toList_compactFields level fs]
    simp [compactFields, Style.compact, quote]

end

mutual

/-- The pretty text is what the pretty style writes. -/
theorem toList_prettyAt (level : Nat) : ∀ (j : Json) (rest : List Char),
    (prettyAt (indentation level) j).toList ++ rest = Style.pretty.write level j rest
  | .array [], rest => by rw [prettyAt, prettyItems, stack]; rfl
  | .array (j :: js), rest => by
    rw [Style.write, ← toList_prettyAt (level + 1) j, ← toList_prettyItems (level + 1) js]
    simp [prettyAt, prettyItems, stack, indentation_append, intercalate_cons, List.flatMap_map, Style.pretty]
  | .object [], rest => by rw [prettyAt, prettyFields, stack]; rfl
  | .object ((name, j) :: fs), rest => by
    rw [Style.write, Style.field, ← toList_prettyAt (level + 1) j, ← toList_prettyFields (level + 1) fs]
    simp [prettyAt, prettyFields, stack, indentation_append, intercalate_cons, List.flatMap_map, Style.pretty, quote]
  | .null, rest | .bool _, rest | .number _, rest | .string _, rest => by rw [Style.write_leaf rfl, prettyAt] <;> simp

theorem toList_prettyItems (level : Nat) : ∀ (js : List Json) (rest : List Char),
    ((prettyItems (indentation level) js).flatMap fun s => ',' :: '\n' :: ((indentation level).toList ++ s.toList)) ++
      rest = Style.pretty.writeItems level js rest
  | [], rest => rfl
  | j :: js, rest => by
    rw [Style.writeItems, ← toList_prettyAt level j, ← toList_prettyItems level js]
    simp [prettyItems, Style.pretty]

theorem toList_prettyFields (level : Nat) : ∀ (fs : List (String × Json)) (rest : List Char),
    ((prettyFields (indentation level) fs).flatMap fun s => ',' :: '\n' :: ((indentation level).toList ++ s.toList)) ++
      rest = Style.pretty.writeFields level fs rest
  | [], rest => rfl
  | (name, j) :: fs, rest => by
    rw [Style.writeFields, Style.field, ← toList_prettyAt level j, ← toList_prettyFields level fs]
    simp [prettyFields, Style.pretty, quote]

end

variable {names : List String}

/-- The compact text of a document is read back. -/
theorem read?_compact (hnames : ∀ name ∈ names, Plain name) {j : Json} (hj : j.WellFormed names) :
    read? j.compact = some j :=
  read?_of_write hnames hj (by rw [← toList_compact, List.append_nil])

/-- So is its pretty text. -/
theorem read?_pretty (hnames : ∀ name ∈ names, Plain name) {j : Json} (hj : j.WellFormed names) :
    read? j.pretty = some j :=
  read?_of_write hnames hj (by rw [← toList_prettyAt, List.append_nil]; rfl)

end Vernacular.Json
