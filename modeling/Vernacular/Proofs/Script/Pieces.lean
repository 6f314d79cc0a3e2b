import Vernacular.Check.Walk
import Vernacular.Proofs.Script.Code

/-!
# Generated code in pieces

Generated code is cut into pieces, each of which is a name that is used, a name that is declared, or some text of its
own. A name that is used comes with the place where a check finds it declared: the walk over a program goes along with
the check, and every part of the program has the state in which the check comes to it.

- `Expr.pieces`, `Stmt.pieces`, `Program.pieces`: the pieces of a tree;
- `Expr.codeOf_pieces`, `Stmt.codeOf_pieces`: together they are its code, by induction on the tree.
-/

namespace Vernacular

/-- A stretch of generated code. -/
inductive Piece where
  /-- Some text with no name in it. -/
  | fixed (text : String)
  /-- A name that is used, and where it is declared in the scopes of the check. -/
  | used (name : String) (place : Option Span)
  /-- A name that is declared. -/
  | declared (id : Ident)
  /-- The name of a method's function, which is not written. The functions of methods that were read have none. -/
  | silent (id : Ident)
deriving DecidableEq, Repr

/-- A name is exchanged where it is used, and not where it is declared. -/
def Piece.text : Piece → String
  | fixed t => t
  | used name _ => identifierName name
  | declared id => id.name
  | silent _ => ""

/-- The code that pieces are cut from. -/
def codeOf : List Piece → String
  | [] => ""
  | p :: ps => p.text ++ codeOf ps

@[simp] theorem codeOf_nil : codeOf [] = "" := rfl

@[simp] theorem codeOf_cons (p : Piece) (ps : List Piece) : codeOf (p :: ps) = p.text ++ codeOf ps := rfl

/-- The code of pieces in a row. -/
@[simp] theorem codeOf_append (ps qs : List Piece) : codeOf (ps ++ qs) = codeOf ps ++ codeOf qs := by
  induction ps with
  | nil => simp
  | cons p ps ih => simp [ih, String.append_assoc]

/-! ## Putting pieces together -/

/-- Pieces with commas between them. -/
def commaPieces : List (List Piece) → List Piece
  | [] => []
  | [ps] => ps
  | ps :: qs :: rest => ps ++ .fixed ", " :: commaPieces (qs :: rest)

/-- Pieces in parentheses, if `b` holds. -/
def parensPieces (b : Bool) (ps : List Piece) : List Piece := if b then .fixed "(" :: ps ++ [.fixed ")"] else ps

/-- Pieces on a line of their own. -/
def Margin.linePieces (margin : Margin) (ps : List Piece) : List Piece := .fixed margin.text :: ps ++ [.fixed "\n"]

/-- The pieces of a statement as they go on a line, or as the lines inside braces. -/
def Place.putPieces (place : Place) (margin : Margin) (ps : List Piece) : List Piece :=
  match place with
  | .lines => ps
  | .inside => margin.linePieces ps

/-- Lines in braces. -/
def bracedPieces (margin : Margin) (lines : List Piece) : List Piece :=
  if lines.isEmpty then [.fixed "{}"] else .fixed (r"{" ++ "\n") :: lines ++ [.fixed (margin.text ++ r"}")]

/-- What an operator puts in front of its operand. -/
def UnaryOp.lead (op : UnaryOp) (operand : String) : String :=
  match op with
  | typeOf => "typeof "
  | not => "!"
  | negate => if operand.toList.head? = some '-' then "- " else "-"
  | plus => if operand.toList.head? = some '+' then "+ " else "+"

/-- An operator in front of its operand, with a blank if the two would be read as one. -/
@[simp] theorem UnaryOp.lead_append (op : UnaryOp) (operand : String) :
    op.lead operand ++ operand = op.apply operand := by
  cases op <;> simp only [lead, apply] <;> split <;> rfl

/-- The code of pieces with commas between them. -/
@[simp] theorem codeOf_commaPieces (pss : List (List Piece)) :
    codeOf (commaPieces pss) = commaSeparated (pss.map codeOf) := by
  fun_induction commaPieces pss with
  | case1 => simp [commaSeparated]
  | case2 ps => simp [commaSeparated]
  | case3 ps qs rest ih =>
    simp only [codeOf_append, codeOf_cons, Piece.text, ih, commaSeparated, List.map_cons, String.intercalate_cons_cons,
      String.append_assoc]

@[simp] theorem codeOf_parensPieces (b : Bool) (ps : List Piece) :
    codeOf (parensPieces b ps) = parens b (codeOf ps) := by
  cases b <;> simp [parensPieces, parens, Piece.text, String.append_assoc]

@[simp] theorem codeOf_linePieces (margin : Margin) (ps : List Piece) :
    codeOf (margin.linePieces ps) = margin.line (codeOf ps) := by
  simp [Margin.linePieces, Margin.line, Piece.text, String.append_assoc]

/-- A statement is a line or stands inside of one. -/
@[simp] theorem codeOf_putPieces (place : Place) (margin : Margin) (ps : List Piece) :
    codeOf (place.putPieces margin ps) = place.put margin (codeOf ps) := by
  cases place
  · rfl
  · exact codeOf_linePieces margin ps

/-- The pieces are whole lines, so that there is no code only if there are no pieces. -/
def WholeLines (ps : List Piece) : Prop := ps ≠ [] → ∃ init, ps = init ++ [.fixed "\n"]

theorem wholeLines_linePieces (margin : Margin) (ps : List Piece) : WholeLines (margin.linePieces ps) :=
  fun _ => ⟨.fixed margin.text :: ps, rfl⟩

/-- Lines in a row are whole lines. -/
theorem WholeLines.append {ps qs : List Piece} (hp : WholeLines ps) (hq : WholeLines qs) : WholeLines (ps ++ qs) := by
  intro h
  by_cases hnil : qs = []
  · subst hnil
    rw [List.append_nil] at h ⊢
    exact hp h
  · obtain ⟨init, rfl⟩ := hq hnil
    exact ⟨ps ++ init, (List.append_assoc ..).symm⟩

/-- Whole lines in braces: there are none exactly if there are no pieces, which decides how the braces are written. -/
theorem WholeLines.codeOf_bracedPieces {lines : List Piece} (h : WholeLines lines) (margin : Margin) :
    codeOf (bracedPieces margin lines) = braced margin (codeOf lines) := by
  unfold bracedPieces braced
  by_cases hnil : lines = []
  · simp [hnil, Piece.text]
  · obtain ⟨init, hinit⟩ := h hnil
    have hne : codeOf lines ≠ "" := by
      rw [hinit, codeOf_append]
      intro hempty
      have := congrArg String.length hempty
      simp [Piece.text] at this
    rw [if_neg hne, if_neg (by simp [hnil])]
    simp [Piece.text, String.append_assoc]

/-! ## The pieces of a tree -/

/-- The name of a function, if it has one, where it is declared. -/
def Callable.namePieces (callable : Callable) : List Piece := callable.name.toList.map .declared

variable (options : CheckOptions)

mutual

/-- The pieces of an expression on a line with the given margin, to which the check comes in the state `c`. -/
def Expr.pieces (margin : Margin) (role : Role) : Expr → Checker → List Piece
  | .literal value _, _ => [.fixed value.text]
  | .ident name _, c => [.used name (c.scopes.lookup? name)]
  | .this _, _ => [.fixed "this"]
  | .super _, _ => [.fixed "super"]
  | .array items _, c => .fixed "[" :: commaPieces (exprPieces margin items c) ++ [.fixed "]"]
  | .object [] _, _ => [.fixed "{}"]
  | .object properties _, c =>
    .fixed r"{ " :: commaPieces (propertyPieces margin properties c) ++ [.fixed r" }"]
  | .function callable, c =>
    .fixed (trimStart (margin.text ++ "function ")) :: callable.namePieces ++ callable.pieces margin c
  | .unary op operand _, c =>
    let inner := parensPieces (operand.precedence < unaryPrecedence) (operand.pieces margin .value c)
    .fixed (op.lead (codeOf inner)) :: inner
  | .update op before target _, c =>
    if before then .fixed op.text :: target.pieces margin .value c
    else target.pieces margin .value c ++ [.fixed op.text]
  | .binary op left right _, c =>
    parensPieces (left.parensOnLeft op) (left.pieces margin .value c) ++ .fixed (" " ++ op.text ++ " ")
      :: parensPieces (right.parensOnRight op) (right.pieces margin .value (left.check options c))
  | .assign op target value _, c =>
    target.pieces margin .value c ++ .fixed (" " ++ op.text ++ " ")
      :: value.pieces margin .value (target.check options c)
  | .call callee args optional _, c =>
    parensPieces (callee.precedence < callPrecedence) (callee.pieces margin .callee c)
      ++ .fixed ((if optional then "?." else "") ++ "(")
      :: commaPieces (exprPieces margin args (callee.check options c)) ++ [.fixed ")"]
  | .new callee args _, c =>
    .fixed "new " :: parensPieces callee.parensUnderNew (callee.pieces margin .value c) ++ .fixed "("
      :: commaPieces (exprPieces margin args (callee.check options c)) ++ [.fixed ")"]
  | .member object name optional _, c =>
    parensPieces object.parensBeforeProperty (object.pieces margin .value c)
      ++ [.fixed ((if optional then "?." else ".") ++ name.used role.rename)]
  | .index object key optional _, c =>
    parensPieces object.parensBeforeProperty (object.pieces margin .value c)
      ++ .fixed ((if optional then "?." else "") ++ "[")
      :: key.pieces margin .value (object.check options c) ++ [.fixed "]"]

def exprPieces (margin : Margin) : List Expr → Checker → List (List Piece)
  | [], _ => []
  | e :: es, c => e.pieces margin .value c :: exprPieces margin es (e.check options c)

def propertyPieces (margin : Margin) : List Property → Checker → List (List Piece)
  | [], _ => []
  | ⟨key, value, _⟩ :: ps, c =>
    (.fixed (key.text ++ ": ") :: value.pieces margin .value c)
      :: propertyPieces margin ps (value.check options c)

/-- The value of a variable, a parameter or a field, if it has one. -/
def valuePieces (margin : Margin) : Option Expr → Checker → List Piece
  | none, _ => []
  | some e, c => .fixed " = " :: e.pieces margin .value c

def variablePieces (margin : Margin) : List Binding → Checker → List (List Piece)
  | [], _ => []
  | ⟨id, type, value, _⟩ :: bs, c =>
    let c := (c.declare id).checkType options type
    (.declared id :: valuePieces margin value c)
      :: variablePieces margin bs (checkExpr? options value c)

def paramPieces (margin : Margin) : List Binding → Checker → List (List Piece)
  | [], _ => []
  | ⟨id, type, value, _⟩ :: bs, c =>
    let c := c.checkType options type
    (.declared id :: valuePieces margin value c)
      :: paramPieces margin bs ((checkExpr? options value c).declare id)

/-- The parameters and the body of a callable. -/
def Callable.pieces (margin : Margin) : Callable → Checker → List Piece
  | ⟨name, params, result, body, _⟩, c =>
    let c := (c.enter .function).declareSelf name
    .fixed "(" :: commaPieces (paramPieces margin params c) ++ .fixed ") "
      :: bracedPieces margin (bodyPieces margin.deeper body ((checkParams options params c).checkType options result))

def bodyPieces (margin : Margin) : Option Block → Checker → List Piece
  | none, _ => []
  | some ⟨body, _⟩, c => stmtPieces margin body (c.hoist body)

def initPieces (margin : Margin) : Option ForInit → Checker → List Piece
  | none, _ => []
  | some (.declaration ⟨kind, bindings, _⟩), c =>
    .fixed (kind.text ++ " ") :: commaPieces (variablePieces margin bindings c)
  | some (.expression e), c => e.pieces margin .value c

def clausePieces (margin : Margin) : Option Expr → Checker → List Piece
  | none, _ => []
  | some e, c => .fixed " " :: e.pieces margin .value c

/-- The pieces of a statement, for a line with the given margin or as all lines inside braces. -/
def Stmt.pieces (margin : Margin) (place : Place) : Stmt → Checker → List Piece
  | .declaration ⟨kind, bindings, _⟩, c =>
    place.putPieces margin
      (.fixed (kind.text ++ " ") :: commaPieces (variablePieces margin bindings c) ++ [.fixed ";"])
  | .function callable, c =>
    place.putPieces margin (.fixed "function " :: callable.namePieces ++ callable.pieces margin c)
  | .classDecl name base _ members _, c =>
    let c := c.declareClass name
    place.putPieces margin (.fixed "class " :: .declared name :: heritagePieces margin base c ++ .fixed " "
      :: bracedPieces margin (memberPieces margin.deeper members (checkExpr? options base c)))
  | .block ⟨body, _⟩, c =>
    let c := (c.enter .block).hoist body
    match place with
    | .lines => bracedPieces margin (stmtPieces margin.deeper body c)
    | .inside => stmtPieces margin body c
  | .ifElse test consequent alternate _, c =>
    let c' := test.check options c
    place.putPieces margin (.fixed "if (" :: test.pieces margin .value c ++ .fixed ") "
      :: bracedPieces margin (consequent.pieces margin.deeper .inside c')
      ++ elsePieces margin alternate (consequent.check options c'))
  | .forLoop init test update body _, c =>
    let c := c.enter .loop
    let c₁ := checkInit? options init c
    let c₂ := checkExpr? options test c₁
    let c₃ := checkExpr? options update c₂
    place.putPieces margin (.fixed "for (" :: initPieces margin init c ++ .fixed ";"
      :: clausePieces margin test c₁ ++ .fixed ";" :: clausePieces margin update c₂ ++ .fixed ") "
      :: bracedPieces margin (body.pieces margin.deeper .inside c₃))
  | .forEach kind id type iterable body _, c =>
    let c' := ((iterable.check options c).enter .loop).checkType options type
    place.putPieces margin (.fixed ("for (" ++ kind.text ++ " ") :: .declared id :: .fixed " of "
      :: iterable.pieces margin .value c ++ .fixed ") "
      :: bracedPieces margin (body.pieces margin.deeper .inside (c'.declare id)))
  | .whileLoop test body _, c =>
    place.putPieces margin (.fixed "while (" :: test.pieces margin .value c ++ .fixed ") "
      :: bracedPieces margin (body.pieces margin.deeper .inside (test.check options c)))
  | .ret none _, _ => place.putPieces margin [.fixed "return;"]
  | .ret (some value) _, c =>
    place.putPieces margin (.fixed "return " :: value.pieces margin .value c ++ [.fixed ";"])
  | .expression e _, c =>
    let inner := e.pieces margin .value c
    place.putPieces margin (parensPieces (startsAmbiguously (codeOf inner)) inner ++ [.fixed ";"])

/-- The base of a class, if it has one. -/
def heritagePieces (margin : Margin) : Option Expr → Checker → List Piece
  | none, _ => []
  | some e, c => .fixed " extends " :: e.pieces margin .value c

/-- The branches after the first. -/
def elsePieces (margin : Margin) : Option Stmt → Checker → List Piece
  | none, _ => []
  | some (.ifElse test consequent alternate _), c =>
    let c' := test.check options c
    .fixed " else if (" :: test.pieces margin .value c ++ .fixed ") "
      :: bracedPieces margin (consequent.pieces margin.deeper .inside c')
      ++ elsePieces margin alternate (consequent.check options c')
  | some s, c => .fixed " else " :: bracedPieces margin (s.pieces margin.deeper .inside c)

def stmtPieces (margin : Margin) : List Stmt → Checker → List Piece
  | [], _ => []
  | s :: ss, c =>
    margin.linePieces (s.pieces margin .lines c) ++ stmtPieces margin ss (s.check options c)

/-- The members of a class. Methods without a body are not written. -/
def memberPieces (margin : Margin) : List Member → Checker → List Piece
  | [], _ => []
  | .method name kind callable modifiers _ _ :: ms, c =>
    (if callable.body.isNone then []
      else margin.linePieces (.fixed (modifiers.text ++ kind.text ++ name.declared)
        :: callable.name.toList.map .silent ++ callable.pieces margin c))
      ++ memberPieces margin ms (callable.check options c)
  | .field name type value modifiers _ _ :: ms, c =>
    let c := c.checkType options type
    margin.linePieces (.fixed (modifiers.text ++ name.declared) :: valuePieces margin value c ++ [.fixed ";"])
      ++ memberPieces margin ms (checkExpr? options value c)

end

/-- The pieces of a program, without the line end behind it. -/
def Program.pieces (unit : String) (p : Program) : List Piece :=
  let c := (Checker.start options |> collectClasses options (topClasses p.body) []).hoist p.body
  (stmtPieces options ⟨unit, 0⟩ p.body c).dropLast

/-! ## Whole lines -/

/-- Statements in a row are whole lines. -/
theorem wholeLines_stmtPieces (margin : Margin) (ss : List Stmt) (c : Checker) :
    WholeLines (stmtPieces options margin ss c) := by
  induction ss generalizing c with
  | nil => exact fun h => absurd rfl h
  | cons s ss ih =>
    rw [stmtPieces]
    exact (wholeLines_linePieces margin _).append (ih _)

theorem wholeLines_bodyPieces (margin : Margin) (body : Option Block) (c : Checker) :
    WholeLines (bodyPieces options margin body c) := by
  cases body with
  | none => exact fun h => absurd rfl h
  | some block =>
    obtain ⟨body, span⟩ := block
    exact wholeLines_stmtPieces options margin body _

/-- So is a single statement that is put inside of braces. -/
theorem Stmt.wholeLines_pieces (margin : Margin) (s : Stmt) (c : Checker) :
    WholeLines (s.pieces options margin .inside c) := by
  cases s with
  | block block =>
    obtain ⟨body, span⟩ := block
    exact wholeLines_stmtPieces options margin body _
  | declaration d =>
    obtain ⟨kind, bindings, span⟩ := d
    exact wholeLines_linePieces margin _
  | ret value span => cases value <;> exact wholeLines_linePieces margin _
  | _ => exact wholeLines_linePieces margin _

theorem wholeLines_memberPieces (margin : Margin) (ms : List Member) (c : Checker) :
    WholeLines (memberPieces options margin ms c) := by
  induction ms generalizing c with
  | nil => exact fun h => absurd rfl h
  | cons m ms ih =>
    cases m with
    | method name kind callable modifiers decorators span =>
      rw [memberPieces]
      refine WholeLines.append ?_ (ih _)
      split
      · exact fun h => absurd rfl h
      · exact wholeLines_linePieces margin _
    | field name type value modifiers decorators span =>
      rw [memberPieces]
      exact (wholeLines_linePieces margin _).append (ih _)

/-! ## The pieces are the code -/

/-- White space is dropped before the word, whatever comes after it. -/
theorem trimStart_append_function (margin rest : String) :
    trimStart (margin ++ ("function " ++ rest)) = trimStart (margin ++ "function ") ++ rest := by
  have hdrop (cs : List Char) : (cs ++ ("function ".toList ++ rest.toList)).dropWhile isWhiteSpace
      = (cs ++ "function ".toList).dropWhile isWhiteSpace ++ rest.toList := by
    induction cs with
    | nil => rfl
    | cons c cs ih =>
      rw [List.cons_append, List.cons_append, List.dropWhile_cons, List.dropWhile_cons, ih]
      split
      · rfl
      · simp
  refine String.toList_inj.mp ?_
  simp only [trimStart, String.toList_append, String.toList_ofList, hdrop]

/-- A callable without a name has an empty one. -/
theorem Callable.codeOf_namePieces (callable : Callable) :
    codeOf callable.namePieces = (callable.name.map Ident.name).getD "" := by
  unfold namePieces
  cases callable.name <;> simp [Piece.text]

theorem callableCode_header (margin : Margin) (header : String) (params : List String) (lines : String) :
    callableCode margin header params lines = header ++ callableCode margin "" params lines := by
  simp [callableCode, String.append_assoc]

/-- An alternative that is no condition is put in braces. -/
theorem elsePieces_of_not_isIf {s : Stmt} (h : s.isIf = false) (margin : Margin) (c : Checker) :
    elsePieces options margin (some s) c
      = .fixed " else " :: bracedPieces margin (s.pieces options margin.deeper .inside c) := by
  cases s with
  | ifElse => cases h
  | _ => rfl

mutual

/-- The pieces of an expression make up its code, whatever the scopes hold. By induction on the tree: the pieces of a
node are those of its parts with fixed text between them. -/
theorem Expr.codeOf_pieces (margin : Margin) (role : Role) :
    ∀ (e : Expr) (c : Checker), codeOf (e.pieces options margin role c) = e.code margin role
  | .literal .., _ | .ident .., _ | .this _, _ | .super _, _ | .object [] _, _ => String.append_empty
  | .array items _, c => by
    simp [Expr.pieces, Expr.code, Piece.text, codeOf_exprPieces margin items, String.append_assoc]
  | .object (p :: ps) _, c => by
    simp [Expr.pieces, Expr.code, Piece.text, codeOf_propertyPieces margin (p :: ps), String.append_assoc]
  | .function callable, c => by
    obtain ⟨name, params, result, body, span⟩ := callable
    rw [Expr.pieces, Expr.code, callableCode_header, String.append_assoc, trimStart_append_function]
    simp [Piece.text, Callable.codeOf_namePieces, Callable.codeOf_pieces margin ⟨name, params, result, body, span⟩]
  | .unary op operand _, c => by
    simp [Expr.pieces, Expr.code, Piece.text, operand.codeOf_pieces margin .value]
  | .update op before target _, c => by
    cases before <;> simp [Expr.pieces, Expr.code, Piece.text, target.codeOf_pieces margin .value]
  | .binary op left right _, c => by
    simp [Expr.pieces, Expr.code, Piece.text, left.codeOf_pieces margin .value,
      right.codeOf_pieces margin .value, String.append_assoc]
  | .assign op target value _, c => by
    simp [Expr.pieces, Expr.code, Piece.text, target.codeOf_pieces margin .value,
      value.codeOf_pieces margin .value, String.append_assoc]
  | .call callee args _ _, c => by
    simp [Expr.pieces, Expr.code, Piece.text, callee.codeOf_pieces margin .callee,
      codeOf_exprPieces margin args, String.append_assoc]
  | .new callee args _, c => by
    simp [Expr.pieces, Expr.code, Piece.text, callee.codeOf_pieces margin .value,
      codeOf_exprPieces margin args, String.append_assoc]
  | .member object _ _ _, c => by
    simp [Expr.pieces, Expr.code, Piece.text, object.codeOf_pieces margin .value, String.append_assoc]
  | .index object key _ _, c => by
    simp [Expr.pieces, Expr.code, Piece.text, object.codeOf_pieces margin .value,
      key.codeOf_pieces margin .value, String.append_assoc]

/-- Expressions in a row. -/
theorem codeOf_exprPieces (margin : Margin) :
    ∀ (es : List Expr) (c : Checker), (exprPieces options margin es c).map codeOf = exprCodes margin es
  | [], _ => rfl
  | e :: es, c => by
    rw [exprPieces, exprCodes, List.map_cons, e.codeOf_pieces margin .value, codeOf_exprPieces margin es]

theorem codeOf_propertyPieces (margin : Margin) :
    ∀ (ps : List Property) (c : Checker), (propertyPieces options margin ps c).map codeOf = propertyCodes margin ps
  | [], _ => rfl
  | ⟨key, value, _⟩ :: ps, c => by
    simp only [propertyPieces, propertyCodes, List.map_cons, codeOf_cons, Piece.text,
      value.codeOf_pieces margin .value, codeOf_propertyPieces margin ps]

theorem codeOf_valuePieces (margin : Margin) :
    ∀ (e : Option Expr) (c : Checker), codeOf (valuePieces options margin e c) = valueCode margin e
  | none, _ => rfl
  | some e, c => by
    simp only [valuePieces, valueCode, codeOf_cons, Piece.text, e.codeOf_pieces margin .value]

theorem codeOf_variablePieces (margin : Margin) :
    ∀ (bs : List Binding) (c : Checker), (variablePieces options margin bs c).map codeOf = bindingCodes margin bs
  | [], _ => rfl
  | ⟨id, type, none, _⟩ :: bs, c => by
    simp [variablePieces, valuePieces, bindingCodes, Piece.text, codeOf_variablePieces margin bs]
  | ⟨id, type, some value, _⟩ :: bs, c => by
    simp [variablePieces, valuePieces, bindingCodes, Piece.text, codeOf_variablePieces margin bs,
      value.codeOf_pieces margin .value, String.append_assoc]

theorem codeOf_paramPieces (margin : Margin) :
    ∀ (bs : List Binding) (c : Checker), (paramPieces options margin bs c).map codeOf = bindingCodes margin bs
  | [], _ => rfl
  | ⟨id, type, none, _⟩ :: bs, c => by
    simp [paramPieces, valuePieces, bindingCodes, Piece.text, codeOf_paramPieces margin bs]
  | ⟨id, type, some value, _⟩ :: bs, c => by
    simp [paramPieces, valuePieces, bindingCodes, Piece.text, codeOf_paramPieces margin bs,
      value.codeOf_pieces margin .value, String.append_assoc]

/-- A callable behind its name. -/
theorem Callable.codeOf_pieces (margin : Margin) :
    ∀ (callable : Callable) (c : Checker), codeOf (callable.pieces options margin c)
      = callableCode margin "" (bindingCodes margin callable.params) (bodyLines margin.deeper callable.body)
  | ⟨name, params, result, body, _⟩, c => by
    simp [Callable.pieces, callableCode, Piece.text, codeOf_paramPieces margin params,
      (wholeLines_bodyPieces options margin.deeper body _).codeOf_bracedPieces, codeOf_bodyPieces margin.deeper body,
      String.append_assoc]

theorem codeOf_bodyPieces (margin : Margin) :
    ∀ (body : Option Block) (c : Checker), codeOf (bodyPieces options margin body c) = bodyLines margin body
  | none, _ => rfl
  | some ⟨body, _⟩, _ => codeOf_stmtPieces margin body _

theorem codeOf_initPieces (margin : Margin) :
    ∀ (init : Option ForInit) (c : Checker), codeOf (initPieces options margin init c) = initCode margin init
  | none, _ => rfl
  | some (.declaration ⟨kind, bindings, _⟩), c => by
    simp [initPieces, initCode, declarationCode, Piece.text, codeOf_variablePieces margin bindings]
  | some (.expression e), c => e.codeOf_pieces margin .value c

theorem codeOf_clausePieces (margin : Margin) :
    ∀ (e : Option Expr) (c : Checker), codeOf (clausePieces options margin e c) = clauseCode margin e
  | none, _ => rfl
  | some e, c => by
    simp only [clausePieces, clauseCode, codeOf_cons, Piece.text, e.codeOf_pieces margin .value]

/-- The pieces of a statement make up its code. -/
theorem Stmt.codeOf_pieces (margin : Margin) (place : Place) :
    ∀ (s : Stmt) (c : Checker), codeOf (s.pieces options margin place c) = s.code margin place
  | .declaration ⟨kind, bindings, _⟩, c => by
    simp [Stmt.pieces, Stmt.code, declarationCode, Piece.text, codeOf_variablePieces margin bindings,
      String.append_assoc]
  | .function ⟨name, params, result, body, span⟩, c => by
    rw [Stmt.pieces, Stmt.code, callableCode_header]
    simp [Piece.text, Callable.codeOf_namePieces, Callable.codeOf_pieces margin ⟨name, params, result, body, span⟩,
      String.append_assoc]
  | .classDecl name base _ members _, c => by
    simp [Stmt.pieces, Stmt.code, Piece.text, codeOf_heritagePieces margin base,
      (wholeLines_memberPieces options margin.deeper members _).codeOf_bracedPieces,
      codeOf_memberPieces margin.deeper members, String.append_assoc]
  | .block ⟨body, _⟩, c => by
    cases place with
    | lines =>
      simp only [Stmt.pieces, Stmt.code, (wholeLines_stmtPieces options margin.deeper body _).codeOf_bracedPieces,
        codeOf_stmtPieces margin.deeper body]
    | inside => simp only [Stmt.pieces, Stmt.code, codeOf_stmtPieces margin body]
  | .ifElse test consequent alternate _, c => by
    simp [Stmt.pieces, Stmt.code, Piece.text, test.codeOf_pieces margin .value,
      (consequent.wholeLines_pieces options margin.deeper _).codeOf_bracedPieces,
      consequent.codeOf_pieces margin.deeper .inside, codeOf_elsePieces margin alternate,
      String.append_assoc]
  | .forLoop init test update body _, c => by
    simp [Stmt.pieces, Stmt.code, Piece.text, codeOf_initPieces margin init, codeOf_clausePieces margin test,
      codeOf_clausePieces margin update, (body.wholeLines_pieces options margin.deeper _).codeOf_bracedPieces,
      body.codeOf_pieces margin.deeper .inside, String.append_assoc]
  | .forEach kind id type iterable body _, c => by
    simp [Stmt.pieces, Stmt.code, Piece.text, iterable.codeOf_pieces margin .value,
      (body.wholeLines_pieces options margin.deeper _).codeOf_bracedPieces,
      body.codeOf_pieces margin.deeper .inside, String.append_assoc]
  | .whileLoop test body _, c => by
    simp [Stmt.pieces, Stmt.code, Piece.text, test.codeOf_pieces margin .value,
      (body.wholeLines_pieces options margin.deeper _).codeOf_bracedPieces,
      body.codeOf_pieces margin.deeper .inside, String.append_assoc]
  | .ret none _, c => by simp [Stmt.pieces, Stmt.code, Piece.text]
  | .ret (some value) _, c => by
    simp [Stmt.pieces, Stmt.code, Piece.text, value.codeOf_pieces margin .value, String.append_assoc]
  | .expression e _, c => by
    simp [Stmt.pieces, Stmt.code, Piece.text, e.codeOf_pieces margin .value]

theorem codeOf_heritagePieces (margin : Margin) :
    ∀ (e : Option Expr) (c : Checker), codeOf (heritagePieces options margin e c) = heritageCode margin e
  | none, _ => rfl
  | some e, c => by
    simp only [heritagePieces, heritageCode, codeOf_cons, Piece.text, e.codeOf_pieces margin .value]

/-- An alternative with the word in front of it. -/
theorem codeOf_elsePieces (margin : Margin) :
    ∀ (s : Option Stmt) (c : Checker), codeOf (elsePieces options margin s c) = elseCode margin s
  | none, _ => rfl
  | some s, c => by
    cases s with
    | ifElse test consequent alternate s =>
      simp [elsePieces, elseCode, Piece.text, test.codeOf_pieces margin .value,
        (consequent.wholeLines_pieces options margin.deeper _).codeOf_bracedPieces,
        consequent.codeOf_pieces margin.deeper .inside, codeOf_elsePieces margin alternate,
        String.append_assoc]
    | _ =>
      rw [elsePieces_of_not_isIf _ rfl, elseCode_of_not_isIf rfl, codeOf_cons,
        (Stmt.wholeLines_pieces options margin.deeper _ c).codeOf_bracedPieces,
        Stmt.codeOf_pieces margin.deeper .inside]
      rfl

/-- Statements in a row. -/
theorem codeOf_stmtPieces (margin : Margin) :
    ∀ (ss : List Stmt) (c : Checker), codeOf (stmtPieces options margin ss c) = stmtLines margin ss
  | [], _ => rfl
  | s :: ss, c => by
    rw [stmtPieces, stmtLines, codeOf_append, codeOf_linePieces, s.codeOf_pieces margin .lines,
      codeOf_stmtPieces margin ss]

/-- Members of a class. -/
theorem codeOf_memberPieces (margin : Margin) :
    ∀ (ms : List Member) (c : Checker), codeOf (memberPieces options margin ms c) = memberLines margin ms
  | [], _ => rfl
  | .method name kind ⟨self, params, result, none, span⟩ modifiers _ _ :: ms, c => by
    simp [memberPieces, memberLines, codeOf_memberPieces margin ms]
  | .method name kind ⟨self, params, result, some ⟨body, s⟩, span⟩ modifiers _ _ :: ms, c => by
    have hself : codeOf (self.toList.map .silent) = "" := by cases self <;> simp [Piece.text]
    rw [memberPieces, memberLines, callableCode_header]
    simp [Piece.text, hself, Callable.codeOf_pieces margin ⟨self, params, result, some ⟨body, s⟩, span⟩,
      codeOf_memberPieces margin ms, bodyLines]
  | .field name type value modifiers _ _ :: ms, c => by
    simp [memberPieces, memberLines, Piece.text, codeOf_valuePieces margin value,
      codeOf_memberPieces margin ms, String.append_assoc]

end

/-- The code of a program is that of its pieces. -/
theorem Program.codeOf_pieces (unit : String) (p : Program) :
    codeOf (p.pieces options unit) = p.code unit := by
  unfold Program.pieces
  extract_lets c
  have hcode := codeOf_stmtPieces options ⟨unit, 0⟩ p.body c
  rw [Program.code, ← hcode]
  by_cases hnil : stmtPieces options ⟨unit, 0⟩ p.body c = []
  · rw [hnil]
    rfl
  · obtain ⟨init, hinit⟩ := wholeLines_stmtPieces options ⟨unit, 0⟩ p.body c hnil
    have hlines : codeOf (init ++ [.fixed "\n"]) = codeOf init ++ "\n" := by simp [Piece.text]
    rw [hinit, List.dropLast_concat, hlines]
    simp [Layout.build, Layout.dropLastChar]

end Vernacular
