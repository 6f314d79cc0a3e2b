import Vernacular.Proofs.Script.Spelling

/-!
# Trees are scanned as their marks

By induction on the tree, the code of an expression or a statement spells the marks that were read off it, if the leaves
can be spelled and the margin is made of blanks.

- `Expr.spells`, `Stmt.spells`: the text on a line; behind an expression no word may go on, and behind a number no
  point;
- `passes_stmtLines`, `passes_memberLines`: the lines inside braces;
- `Expr.tokenize_shown`, `Program.tokenize_code`: the code has tokens, and they fit its marks.
-/

namespace Vernacular

variable {margin : Margin} {s : String} {ms : List Mark}

/-! ## Expressions -/

/-- What may stand behind an expression. -/
def Expr.stop (e : Expr) : Char → Bool := if e.parensBeforeProperty then noNumber else noWord

/-- What goes on neither a word nor a number goes on no expression. -/
theorem Expr.stop_of_noNumber {e : Expr} {c : Char} (h : noNumber c = true) : e.stop c = true := by
  unfold Expr.stop
  split
  · exact h
  · exact noWord_of_noNumber h

section Expr

variable {e : Expr}

/-- An expression before something that goes on neither a word nor a number. -/
theorem Spells.loose (h : Spells false e.stop s ms) :
    Spells false noNumber s ms := h.mono fun _ => Expr.stop_of_noNumber

/-- Before a property an expression stands in parentheses if it ends in a number. -/
theorem Spells.beforeProperty (h : Spells false e.stop s ms) :
    Spells false noWord (Vernacular.parens e.parensBeforeProperty s) (Vernacular.inParens e.parensBeforeProperty ms) :=
  Spells.parens _ h.loose fun hb => by rwa [Expr.stop, hb] at h

/-- An operand, in parentheses or not. -/
theorem Spells.operand (b : Bool) (h : Spells false e.stop s ms) :
    Spells false noNumber (Vernacular.parens b s) (Vernacular.inParens b ms) :=
  Spells.parens b h.loose fun _ => h.loose

theorem Spells.anywhere (h : Spells false anything s ms) : Spells false e.stop s ms := h.mono fun _ _ => rfl

theorem Spells.closing (h : Spells false noWord s ms) : Spells false e.stop s ms := by
  refine h.mono fun c hc => ?_
  unfold Expr.stop at hc
  split at hc
  · exact noWord_of_noNumber hc
  · exact hc

/-- What binds more loosely than calls is put in parentheses in front of a property. -/
theorem Expr.parensBeforeProperty_of_lt (h : e.precedence < callPrecedence) : e.parensBeforeProperty = true := by
  unfold Expr.parensBeforeProperty
  split
  · rfl
  · exact decide_eq_true h

/-- An expression with an operator outside all parentheses stands in parentheses before a property. -/
theorem Spells.asOperator (h : Spells false noNumber s ms) (he : e.precedence < callPrecedence) :
    Spells false e.stop s ms := by
  rwa [Expr.stop, if_pos (Expr.parensBeforeProperty_of_lt he)]

end Expr

/-- Every operator between two operands binds more loosely than calls. -/
theorem BinaryOp.precedence_lt (op : BinaryOp) : op.precedence < callPrecedence := by
  cases op <;> decide

/-- Blanks are white space for generation too, which looks past them at the beginning of a line. -/
theorem isWhiteSpace_of_isBlank {c : Char} (h : isBlank c = true) : isWhiteSpace c = true := by
  simp only [isBlank, Bool.or_eq_true, beq_iff_eq] at h
  rcases h with (((rfl | rfl) | rfl) | rfl) | rfl <;> decide

/-- The margin of a function goes, as it stands on a line already. -/
theorem trimStart_margin (hm : margin.Blank) {c : Char} {cs : List Char} (hs : s.toList = c :: cs)
    (hc : isWhiteSpace c = false) : trimStart (margin.text ++ s) = s := by
  refine String.toList_inj.mp ?_
  rw [trimStart, String.toList_ofList, String.toList_append,
    List.dropWhile_append_of_pos fun d hd => isWhiteSpace_of_isBlank (hm.text d hd), hs,
    List.dropWhile_cons_of_neg (by simp [hc])]

theorem UpdateOp.head?_text (op : UpdateOp) : ∀ c ∈ op.text.toList.head?, noNumber c = true := by
  cases op <;> exact head?_of_all (by decide)

/-- What begins with the sign of what may be skipped, or else as it does. -/
theorem stops_optional {stop : Char → Bool} (optional : Bool) (hmark : stop '?' = true)
    (h : ∀ c ∈ s.toList.head?, stop c = true) :
    ∀ c ∈ ((if optional then "?." else "") ++ s).toList.head?, stop c = true := by
  cases optional with
  | true => exact stops_append (w := "?.") _ hmark
  | false => exact h

/-- A line that begins with a function is recognized behind any margin. -/
theorem trimStart_function (hm : margin.Blank) (name : String) (params : List String) (lines : String) :
    trimStart (margin.text ++ callableCode margin ("function " ++ name) params lines)
      = callableCode margin ("function " ++ name) params lines := by
  obtain ⟨cs, hcs⟩ : ∃ cs, (callableCode margin ("function " ++ name) params lines).toList = 'f' :: cs :=
    ⟨_, by simp only [callableCode, String.append_assoc, String.toList_append]; rfl⟩
  exact trimStart_margin hm hcs (by decide)

/-- A construction. -/
theorem spells_new (h : Spells false noNumber s ms) {args : List String} {ass : List (List Mark)}
    (hargs : SpellAll args ass) : Spells false anything ("new " ++ s ++ "(" ++ commaSeparated args ++ ")")
      (.word "new" :: ms ++ inParens true (commaMarks ass)) := by
  have hnew : Spells false noWord "new" [.word "new"] := .word rfl
  have hrest := h.append (Spells.inParens (n := false) hargs.passes) (stops_enclosed _ _ rfl)
  have hcode : "new " ++ s ++ "(" ++ commaSeparated args ++ ")" =
      "new" ++ " " ++ (s ++ ("(" ++ commaSeparated args ++ ")")) :=
    String.toList_inj.mp (by simp)
  rw [hcode]
  exact hnew.spaced hrest rfl

/-- A name behind the sign of a property. -/
theorem spells_property (optional : Bool) (role : Role) {name : PropertyName} (h : name.Sound .spelled) :
    Spells false noWord ((if optional then "?." else ".") ++ name.used role.rename)
      (.symbol (if optional then .optionalChain else .dot) :: name.usedMarks role.rename) := by
  have hname := PropertyName.spells_used role h
  cases optional with
  | true => exact hname.announcedBy (t := .optionalChain) (Symbol.closed_of_mem _ (by decide)) rfl
  | false =>
    refine hname.pointed fun c hc => ?_
    cases name with
    | plain s => exact ne_point_of_head? (isWordText_rename role (isWordText_of_spelled h)) hc
    | hashed s =>
      obtain rfl : '#' = c := by simpa [PropertyName.used] using hc
      decide

/-- A word, something in parentheses, and lines in braces. -/
theorem spells_headed (hm : margin.Blank) {w inside lines : String} {is ls : List Mark}
    (hw : isWordText w.toList = true) (hi : Passes noNumber inside is) (hl : Passes anything lines ls) :
    Spells false anything (w ++ " (" ++ inside ++ ") " ++ braced margin lines)
      (.word w :: inParens true is ++ inBraces ls) := by
  have hcode : w ++ " (" ++ inside ++ ") " ++ braced margin lines
      = w ++ " " ++ (("(" ++ inside ++ ")") ++ " " ++ braced margin lines) := String.toList_inj.mp (by simp)
  rw [hcode]
  exact (Spells.word hw).spaced ((Spells.inParens hi).spaced (hl.braced hm) rfl) rfl

/-- The header of a counting loop. -/
theorem passes_forHeader {a b c : String} {as bs cs : List Mark} (ha : Passes noNumber a as) (hb : Passes noNumber b bs)
    (hc : Passes noNumber c cs) : Passes noNumber (a ++ ";" ++ b ++ ";" ++ c)
      (as ++ .symbol .semicolon :: bs ++ .symbol .semicolon :: cs) := by
  have hsemicolon : Passes anything ";" [.symbol .semicolon] :=
    (Spells.closed (t := .semicolon) (Symbol.closed_of_mem _ (by decide)) rfl).passes
  have hfirst := (ha.append hsemicolon (head?_of_all (by decide)) nofun).append' hb
  have hall := (hfirst.append hsemicolon (head?_of_all (by decide)) nofun).append' hc
  simpa only [List.append_assoc, List.cons_append, List.nil_append] using hall

theorem VariableKind.spells (kind : VariableKind) : Spells false noWord kind.text [kind.mark] := by
  cases kind <;> exact .word rfl

/-- A branch behind another. -/
theorem Spells.orElse {s' : String} {ms' : List Mark} (h : Spells false anything s ms)
    (h' : Spells false anything s' ms') : Spells false anything (s ++ " else " ++ s') (ms ++ .word "else" :: ms') := by
  have hcode : s ++ " else " ++ s' = s ++ " " ++ ("else" ++ " " ++ s') := String.toList_inj.mp (by simp)
  rw [hcode]
  exact h.spaced ((Spells.word (s := "else") rfl).spaced h' rfl) rfl

/-- An alternative that is no condition, in braces. -/
theorem Spells.orElse_of_not_isIf (h : Spells false anything s ms) (hm : margin.Blank) {last : Stmt}
    (hlast : last.isIf = false) (h' : Passes anything (last.code margin.deeper .inside) (last.marks .inside)) :
    Spells false anything (s ++ elseCode margin (some last)) (ms ++ elseMarks (some last)) := by
  have hbranch := h.orElse (h'.braced hm)
  rw [elseMarks, hlast, if_neg Bool.false_ne_true, elseCode_of_not_isIf hlast, ← String.append_assoc]
  exact hbranch

theorem append_assign (s t : String) : s ++ " = " ++ t = s ++ " " ++ "=" ++ " " ++ t :=
  String.toList_inj.mp (by simp)

/-- A text with a semicolon behind it. -/
theorem Spells.semicolon (h : Spells false noNumber s ms) :
    Spells false anything (s ++ ";") (ms ++ [Mark.symbol .semicolon]) :=
  h.append (Spells.closed (t := .semicolon) (Symbol.closed_of_mem _ (by decide)) rfl) (head?_of_all (by decide))

/-- The text of a statement has these marks: on a line, or as the lines inside braces. -/
def Place.Spells (place : Place) (s : String) (ms : List Mark) : Prop :=
  match place with
  | .lines => Vernacular.Spells false anything s ms
  | .inside => Passes anything s ms

/-- A statement is spelled as a line or inside of one. -/
theorem Place.spells_put (place : Place) (hm : margin.Blank) (h : Vernacular.Spells false anything s ms) :
    place.Spells (place.put margin s) ms := by
  cases place with
  | lines => exact h
  | inside => exact h.line hm

theorem Margin.blank_deeper (hm : margin.Blank) : margin.deeper.Blank := hm

mutual

/-- The text of an expression is scanned to its marks. By induction on the tree, with one case for each kind of node.
What may follow the text (`Expr.stop`) carries the induction: where parentheses are put in front of a property it
must not go on a number, and elsewhere it must only not go on a word. -/
theorem Expr.spells {margin : Margin} (hm : margin.Blank) (role : Role) :
    ∀ e : Expr, e.Shown .spelled True → Spells false e.stop (e.code margin role) (e.marks role)
  | .literal value s, h => by
    rw [Expr.code, Expr.marks]
    obtain ⟨hloose, htight⟩ := Literal.spells h
    -- only behind a number a point would be read as part of it
    cases value with
    | number => exact hloose
    | _ => exact (htight nofun).closing
  | .ident name s, h => by
    rw [Expr.code, Expr.marks]
    obtain ⟨k, hk, hs⟩ := h
    exact (Spells.path (isPathText_identifierName (isWordText_of_mem (by decide) hk hs))).closing
  | .this s, h => by
    rw [Expr.code, Expr.marks]
    exact (Spells.word rfl).closing
  | .super s, h => by
    rw [Expr.code, Expr.marks]
    exact (Spells.word rfl).closing
  | .array items s, h => by
    rw [Expr.code, Expr.marks]
    exact (Spells.inBrackets (spellAll_exprs hm items h).passes).anywhere
  | .object [] s, h => by
    rw [Expr.code, Expr.marks, propertiesMarks]
    exact (Spells.inBraces .empty).anywhere
  | .object (p :: ps) s, h => by
    rw [Expr.code, Expr.marks]
    · have hblank : Passes anything " " [] := .blanks (List.all_eq_true.mp (by decide))
      -- the blanks inside the braces are regrouped to stand with the properties
      have hinside := (hblank.append' (spellAll_properties hm (p :: ps) h).passes).append hblank
        (head?_of_all (by decide)) nofun
      rw [List.nil_append, List.append_nil] at hinside
      have hcode : r"{ " ++ commaSeparated (propertyCodes margin (p :: ps)) ++ r" }"
          = r"{" ++ (" " ++ commaSeparated (propertyCodes margin (p :: ps)) ++ " ") ++ r"}" :=
        String.toList_inj.mp (by simp)
      rw [hcode]
      exact (Spells.inBraces (hinside.mono fun _ _ => rfl)).anywhere
    · nofun
  | .function ⟨name, params, result, body, s⟩, h => by
    rw [Expr.code, Expr.marks]
    have hcode := spells_function hm h.2.1 (spellAll_bindings hm params h.2.2.1)
      (passes_body (Margin.blank_deeper hm) body h.2.2.2)
    rw [trimStart_function hm]
    exact hcode.anywhere
  | .unary op operand s, h => by
    rw [Expr.code, Expr.marks]
    exact (op.spells ((operand.spells hm .value h).operand _)).asOperator (show 14 < 17 by decide)
  | .update op true target s, h => by
    rw [Expr.code, Expr.marks, if_pos rfl, if_pos rfl]
    exact (op.spells.append (target.spells hm .value h.2).loose fun _ _ => rfl).asOperator (show 15 < 17 by decide)
  | .update op false target s, h => by
    rw [Expr.code, Expr.marks, if_neg Bool.false_ne_true, if_neg Bool.false_ne_true]
    exact ((target.spells hm .value h.2).loose.append_tight op.spells op.head?_text).anywhere
  | .binary op left right s, h => by
    rw [Expr.code, Expr.marks, ← op.between.2]
    have hcode := ((left.spells hm .value h.1).operand (left.parensOnLeft op)).between op.between.1
      ((right.spells hm .value h.2).operand (right.parensOnRight op)) rfl
    exact hcode.asOperator op.precedence_lt
  | .assign op target value s, h => by
    rw [Expr.code, Expr.marks, ← op.between.2]
    have hcode := (target.spells hm .value h.2.1).loose.between op.between.1 (value.spells hm .value h.2.2).loose rfl
    exact hcode.asOperator (show 2 < 17 by decide)
  | .call callee args optional s, h => by
    rw [Expr.code, Expr.marks]
    have hargs := Spells.optional optional fun named => Spells.inParens (n := named) (spellAll_exprs hm args h.2).passes
    have hcode := ((callee.spells hm .callee h.1).operand (callee.precedence < callPrecedence)).append hargs
      (stops_optional optional rfl (stops_enclosed _ _ rfl))
    simp only [← String.append_assoc, ← List.append_assoc] at hcode
    exact hcode.anywhere
  | .new callee args s, h => by
    rw [Expr.code, Expr.marks]
    have hcode := spells_new ((callee.spells hm .value h.1).operand callee.parensUnderNew) (spellAll_exprs hm args h.2)
    exact hcode.anywhere
  | .member object name optional s, h => by
    rw [Expr.code, Expr.marks, String.append_assoc]
    refine ((object.spells hm .value h.1).beforeProperty.append (spells_property optional role h.2) ?_).closing
    cases optional with
    | true => exact stops_append (w := "?.") _ rfl
    | false => exact stops_append (w := ".") _ rfl
  | .index object key optional s, h => by
    rw [Expr.code, Expr.marks]
    have hkey := Spells.optional optional fun named =>
      Spells.inBrackets (n := named) (key.spells hm .value h.2).loose.passes
    have hcode := (object.spells hm .value h.1).beforeProperty.append hkey
      (stops_optional optional rfl (stops_enclosed _ _ rfl))
    simp only [← String.append_assoc, ← List.append_assoc] at hcode
    exact hcode.anywhere

/-- Expressions with commas between them. -/
theorem spellAll_exprs {margin : Margin} (hm : margin.Blank) :
    ∀ es : List Expr, ExprsShown .spelled True es → SpellAll (exprCodes margin es) (exprsMarks es)
  | [], _ => .nil
  | e :: es, h => .cons (e.spells hm .value h.1).loose (spellAll_exprs hm es h.2)

theorem spellAll_properties {margin : Margin} (hm : margin.Blank) :
    ∀ ps : List Property, PropertiesShown .spelled True ps → SpellAll (propertyCodes margin ps) (propertiesMarks ps)
  | [], _ => .nil
  | ⟨key, value, s⟩ :: ps, h => by
    have hcolon : Spells false anything ":" [.symbol .colon] :=
      .closed (t := .colon) (Symbol.closed_of_mem _ (by decide)) rfl
    have hvalue := hcolon.spaced (value.spells hm .value h.1.2).loose rfl
    have hboth := (ObjectKey.spells h.1.1).append hvalue (stops_enclosed _ _ rfl)
    have hcode : key.text ++ ": " ++ value.code margin .value = key.text ++ (":" ++ " " ++ value.code margin .value) :=
      String.append_assoc
    rw [propertyCodes, propertiesMarks, hcode]
    exact .cons hboth (spellAll_properties hm ps h.2)

/-- Bindings with their values. -/
theorem spellAll_bindings {margin : Margin} (hm : margin.Blank) :
    ∀ bs : List Binding, BindingsShown .spelled True bs → SpellAll (bindingCodes margin bs) (bindingsMarks bs)
  | [], _ => .nil
  | ⟨id, type, none, s⟩ :: bs, h => by
    have hid := Spells.word (isWordText_of_bound h.1.1)
    exact .cons (hid.mono fun _ => noWord_of_noNumber) (spellAll_bindings hm bs h.2)
  | ⟨id, type, some value, s⟩ :: bs, h => by
    have hid := Spells.word (isWordText_of_bound h.1.1)
    have hcode := hid.between (Between.symbol .assign rfl) (value.spells hm .value h.1.2).loose rfl
    rw [bindingCodes, bindingsMarks, valueMarks, append_assign]
    exact .cons hcode (spellAll_bindings hm bs h.2)

/-- The lines of a body, of which there may be none. -/
theorem passes_body {margin : Margin} (hm : margin.Blank) :
    ∀ body : Option Block, OptBlockShown .spelled True body → Passes anything (bodyLines margin body) (bodyMarks body)
  | none, _ => .empty
  | some ⟨body, s⟩, h => by
    rw [bodyLines, bodyMarks]
    exact passes_stmtLines hm body h

/-- A declaration without its semicolon. -/
theorem spells_declaration {margin : Margin} (hm : margin.Blank) :
    ∀ d : Declaration, d.Shown .spelled True → Spells false noNumber (declarationCode margin d) (declarationMarks d)
  | ⟨kind, bindings, s⟩, h => by
    rw [declarationCode, declarationMarks]
    have hbindings := spellAll_bindings hm bindings h.2
    cases bindings with
    | nil => exact absurd rfl (h.1 trivial)
    | cons b bs =>
      obtain ⟨id, type, value, s⟩ := b
      exact kind.spells.spaced (SpellAll.spells hbindings (by cases value <;> simp [bindingCodes])) rfl

theorem passes_init {margin : Margin} (hm : margin.Blank) :
    ∀ init : Option ForInit, OptForInitShown .spelled True init →
    Passes noNumber (initCode margin init) (initMarks init)
  | none, _ => .empty
  | some (.declaration d), h => by
    rw [initCode, initMarks]
    exact (spells_declaration hm d h).passes
  | some (.expression e), h => by
    rw [initCode, initMarks]
    exact (e.spells hm .value h).loose.passes

/-- A clause of a loop, which may be missing. -/
theorem passes_clause {margin : Margin} (hm : margin.Blank) :
    ∀ e : Option Expr, OptExprShown .spelled True e → Passes noNumber (clauseCode margin e) (clauseMarks e)
  | none, _ => .empty
  | some e, h => by
    rw [clauseCode, clauseMarks]
    exact (Passes.blanks (g := " ") (List.all_eq_true.mp (by decide))).append' (e.spells hm .value h).loose.passes

/-- The text of a statement is scanned to its marks. By induction on the tree, with `Expr.spells` for the
expressions. -/
theorem Stmt.spells {margin : Margin} (hm : margin.Blank) (place : Place) :
    ∀ s : Stmt, s.Shown .spelled True → place.Spells (s.code margin place) (s.marks place)
  | .declaration d, h => by
    rw [Stmt.code, Stmt.marks]
    exact place.spells_put hm (spells_declaration hm d h).semicolon
  | .function ⟨name, params, result, body, s⟩, h => by
    rw [Stmt.code, Stmt.marks]
    exact place.spells_put hm (spells_function hm h.2.1 (spellAll_bindings hm params h.2.2.1)
      (passes_body (Margin.blank_deeper hm) body h.2.2.2))
  | .classDecl name base interfaces members s, h => by
    rw [Stmt.code, Stmt.marks]
    have hclass : Spells false noWord "class" [.word "class"] := .word rfl
    have hheader := hclass.spaced (spells_heritage hm h.1 base h.2.1) rfl
    have hall := hheader.spaced ((passes_memberLines (Margin.blank_deeper hm) members h.2.2).braced hm) rfl
    simp only [String.append_assoc] at hall ⊢
    exact place.spells_put hm hall
  | .block ⟨body, s⟩, h => by
    cases place with
    | lines =>
      rw [Stmt.code, Stmt.marks]
      exact (passes_stmtLines (Margin.blank_deeper hm) body h).braced hm
    | inside =>
      rw [Stmt.code, Stmt.marks]
      exact passes_stmtLines hm body h
  | .ifElse test consequent alternate s, h => by
    rw [Stmt.code, Stmt.marks]
    have hfirst := spells_headed hm (w := "if") rfl (test.spells hm .value h.1).loose.passes
      (consequent.spells (Margin.blank_deeper hm) .inside h.2.1)
    exact place.spells_put hm (spells_else hm hfirst alternate h.2.2)
  | .forLoop init test update body s, h => by
    rw [Stmt.code, Stmt.marks]
    have hheader := passes_forHeader (passes_init hm init h.1) (passes_clause hm test h.2.1)
      (passes_clause hm update h.2.2.1)
    have hloop := spells_headed hm (w := "for") rfl hheader
      (body.spells (Margin.blank_deeper hm) .inside h.2.2.2)
    simp only [String.append_assoc] at hloop ⊢
    exact place.spells_put hm hloop
  | .forEach kind id type iterable body s, h => by
    rw [Stmt.code, Stmt.marks]
    have hof := (Spells.word (s := "of") rfl).spaced (iterable.spells hm .value h.2.1).loose rfl
    have hheader := kind.spells.spaced ((Spells.word (isWordText_of_bound h.1)).spaced hof rfl) rfl
    have hloop := spells_headed hm (w := "for") rfl hheader.passes
      (body.spells (Margin.blank_deeper hm) .inside h.2.2)
    simp only [String.append_assoc] at hloop ⊢
    exact place.spells_put hm hloop
  | .whileLoop test body s, h => by
    rw [Stmt.code, Stmt.marks]
    exact place.spells_put hm (spells_headed hm (w := "while") rfl
      (test.spells hm .value h.1).loose.passes (body.spells (Margin.blank_deeper hm) .inside h.2))
  | .ret none s, h => by
    rw [Stmt.code, Stmt.marks]
    have hreturn : Spells false noWord "return" [.word "return"] := .word rfl
    exact place.spells_put hm (hreturn.mono fun _ => noWord_of_noNumber).semicolon
  | .ret (some value) s, h => by
    rw [Stmt.code, Stmt.marks]
    have hreturn : Spells false noWord "return" [.word "return"] := .word rfl
    exact place.spells_put hm (hreturn.spaced_tight (value.spells hm .value h).loose rfl).semicolon
  | .expression e s, h => by
    rw [Stmt.code, Stmt.marks]
    have he := e.spells hm .value h
    rw [startsAmbiguously_eq he]
    exact place.spells_put hm (he.operand _).semicolon

/-- An alternative behind the brace that closes the branch. -/
theorem spells_else {margin : Margin} (hm : margin.Blank) {code : String} {ms : List Mark}
    (hcode : Spells false anything code ms) :
    ∀ s : Option Stmt, OptStmtShown .spelled True s →
    Spells false anything (code ++ elseCode margin s) (ms ++ elseMarks s)
  | none, h => by
    rw [elseCode, elseMarks, String.append_empty, List.append_nil]
    exact hcode
  | some s, h => by
    cases s with
    | ifElse test consequent alternate s =>
      have hfirst := spells_headed hm (w := "if") rfl (test.spells hm .value h.1).loose.passes
        (consequent.spells (Margin.blank_deeper hm) .inside h.2.1)
      have hall := spells_else hm (hcode.orElse hfirst) alternate h.2.2
      rw [elseCode, elseMarks, Stmt.isIf, if_pos rfl, Stmt.marks]
      simp only [String.append_assoc, List.append_assoc, List.cons_append] at hall ⊢
      exact hall
    | _ => exact hcode.orElse_of_not_isIf hm rfl (Stmt.spells (Margin.blank_deeper hm) .inside _ h)

/-- A class with its base. -/
theorem spells_heritage {margin : Margin} (hm : margin.Blank) {name : String} (hname : Lexicon.spelled.bound name) :
    ∀ base : Option Expr, OptExprShown .spelled True base →
      Spells false noNumber (name ++ heritageCode margin base) (.word name :: heritageMarks base)
  | none, h => by
    rw [heritageCode, heritageMarks, String.append_empty]
    exact (Spells.word (isWordText_of_bound hname)).mono fun _ => noWord_of_noNumber
  | some e, h => by
    have hextends : Spells false noWord "extends" [.word "extends"] := .word rfl
    have hall := (Spells.word (isWordText_of_bound hname)).spaced (hextends.spaced (e.spells hm .value h).loose rfl) rfl
    rw [heritageCode, heritageMarks]
    simp only [String.append_assoc] at hall ⊢
    exact hall

/-- Lines of statements, one after the other. -/
theorem passes_stmtLines {margin : Margin} (hm : margin.Blank) :
    ∀ ss : List Stmt, StmtsShown .spelled True ss → Passes anything (stmtLines margin ss) (stmtsMarks ss)
  | [], _ => .empty
  | s :: ss, h => by
    rw [stmtLines, stmtsMarks]
    exact (Spells.line hm (s.spells hm .lines h.1)).append' (passes_stmtLines hm ss h.2)

/-- Lines of members. -/
theorem passes_memberLines {margin : Margin} (hm : margin.Blank) :
    ∀ ms : List Member, MembersShown .spelled True ms → Passes anything (memberLines margin ms) (membersMarks ms)
  | [], _ => .empty
  | .method name kind ⟨id, params, result, some ⟨body, s⟩, s'⟩ modifiers decorators s'' :: ms, h => by
    rw [memberLines, membersMarks]
    have hmethod := spells_method hm modifiers kind h.1.1.sound (spellAll_bindings hm params h.1.2.1)
      (passes_stmtLines (Margin.blank_deeper hm) body h.1.2.2)
    exact (hmethod.line hm).append' (passes_memberLines hm ms h.2)
  | .method name kind ⟨id, params, result, none, s'⟩ modifiers decorators s'' :: ms, h => by
    rw [memberLines, membersMarks]
    exact passes_memberLines hm ms h.2
  | .field name type value modifiers decorators s :: ms, h => by
    rw [memberLines, membersMarks]
    have hfield := modifiers.spells (spells_value hm (PropertyName.spells_declared h.1.1.sound) value h.1.2)
    have hall := (hfield.semicolon.line hm).append' (passes_memberLines hm ms h.2)
    simp only [String.append_assoc, List.append_assoc, List.cons_append, List.nil_append] at hall ⊢
    exact hall

/-- A value behind the name that it is given to. -/
theorem spells_value {margin : Margin} (hm : margin.Blank) {name : String} {ns : List Mark}
    (hname : Spells false noWord name ns) : ∀ value : Option Expr, OptExprShown .spelled True value →
      Spells false noNumber (name ++ valueCode margin value) (ns ++ valueMarks value)
  | none, h => by
    rw [valueCode, valueMarks, String.append_empty, List.append_nil]
    exact hname.mono fun _ => noWord_of_noNumber
  | some e, h => by
    have hall := hname.between (Between.symbol .assign rfl) (e.spells hm .value h).loose rfl
    rw [valueCode, valueMarks, ← String.append_assoc, append_assign]
    exact hall

end

/-! ## Whole texts -/

/-- A text that passes is scanned to tokens with its marks, up to the end. -/
theorem Passes.tokenize {stop : Char → Bool} (h : Passes stop s ms) :
    ∃ ts, tokenize s = .ok ts ∧ Fits none ts (ms ++ [Mark.eof]) := by
  obtain ⟨broken, hscan⟩ := h true [] (by simp)
  rw [List.append_nil] at hscan
  exact tokenize_of_scans hscan rfl

/-- The code of an expression has tokens, and they fit its marks. -/
theorem Expr.tokenize_shown (hm : margin.Blank) (role : Role) {e : Expr} (h : e.Shown .spelled True) :
    ∃ ts, tokenize (e.code margin role) = .ok ts ∧ Fits none ts (e.marks role ++ [Mark.eof]) :=
  (e.spells hm role h).passes.tokenize

/-- The code of an expression is scanned to tokens with its marks. -/
theorem Expr.tokenize_code (hm : margin.Blank) (role : Role) {e : Expr} (h : e.Sound .spelled) :
    ∃ ts, tokenize (e.code margin role) = .ok ts ∧ Fits none ts (e.marks role ++ [Mark.eof]) :=
  e.tokenize_shown hm role h.shown

/-- The last line end is not needed. -/
theorem passes_stmtLines_dropLast (hm : margin.Blank) {s : Stmt} {ss : List Stmt}
    (h : StmtsShown .spelled True (s :: ss)) :
    ∃ text, stmtLines margin (s :: ss) = text ++ "\n" ∧ Passes anything text (stmtsMarks (s :: ss)) := by
  have hblank : Passes anything margin.text [] := .blanks hm.text
  induction ss generalizing s with
  | nil =>
    refine ⟨margin.text ++ s.code margin .lines, ?_, ?_⟩
    · rw [stmtLines, stmtLines, String.append_empty]
      rfl
    · rw [stmtsMarks, stmtsMarks, List.append_nil]
      exact hblank.append' (s.spells hm .lines h.1).passes
  | cons s' ss ih =>
    obtain ⟨text, htext, hpasses⟩ := ih h.2
    refine ⟨margin.line (s.code margin .lines) ++ text, ?_, ?_⟩
    · rw [stmtLines, htext, String.append_assoc]
    · rw [stmtsMarks]
      exact (Spells.line hm (s.spells hm .lines h.1)).append' hpasses

/-- The code of a program has tokens, and they fit its marks. -/
theorem Program.tokenize_code {unit : String} (hu : ∀ c ∈ unit.toList, isBlank c = true) {p : Program}
    (h : p.Sound .spelled) : ∃ ts, tokenize (p.code unit) = .ok ts ∧
    Fits none ts (stmtsMarks p.body ++ [Mark.eof]) := by
  obtain ⟨body, span⟩ := p
  cases body with
  | nil =>
    have hempty : Passes anything (Program.code unit ⟨[], span⟩) [] := by
      rw [Program.code, stmtLines]
      exact .empty
    exact hempty.tokenize
  | cons s ss =>
    have hm : (⟨unit, 0⟩ : Margin).Blank := hu
    obtain ⟨text, htext, hpasses⟩ := passes_stmtLines_dropLast hm (stmtsShown_of_sound h)
    have hcode : Program.code unit ⟨s :: ss, span⟩ = text := by
      rw [Program.code, htext]
      refine String.toList_inj.mp ?_
      simp [Layout.build, Layout.dropLastChar]
    rw [hcode]
    exact hpasses.tokenize

end Vernacular
