import Vernacular.Proofs.Grammar.Yields
import Vernacular.Proofs.Script.Marks

/-!
# A stricter grammar

The parser reads more than the language of generated code allows: it reads `??` beside `&&` and `||`, a base with an
operator in front of it, and constructions of what a call gives. Here is a grammar that does not, in which each category
of expressions lists what may stand for it, and a derivation carries the tree that the marks are grouped to (`Derives`,
`DerivesStmt`). It goes into the bodies of functions and says nothing of what the parser checks as strictly; the base of
a class is any expression.

- `Derives.enclosed`: what stands in a category tighter than its own is in parentheses;
- `Derives.bare`: how a name and a function are derived;
- `Derives.restricted`: so the three restrictions hold in every derivation.
-/

namespace Vernacular

open Grammar

/-! ## Categories -/

/-- The categories of expressions, from the tightest. Each is a place in which an expression may stand. -/
inductive Category where
  | primary | member | call | update | unary | power | product | sum | shift | relation | equality | bitwiseAnd
  | bitwiseOr | conjunction | disjunction | coalesceHead | coalescence | shortCircuit | assignment
deriving DecidableEq, Repr

namespace Category

/-- The categories that contain a category as it is. Conjunctions are no operands of `??`, and a chain of `??` is no
operand of the other two logical operators: they meet only in `shortCircuit`, which is an operand of none. -/
def wider : Category → List Category
  | primary => [member]
  | member => [call]
  | call => [update]
  | update => [unary]
  | unary => [power]
  | power => [product]
  | product => [sum]
  | sum => [shift]
  | shift => [relation]
  | relation => [equality]
  | equality => [bitwiseAnd]
  | bitwiseAnd => [bitwiseOr]
  | bitwiseOr => [conjunction, coalesceHead]
  | conjunction => [disjunction]
  | disjunction => [shortCircuit]
  | coalesceHead => []
  | coalescence => [coalesceHead, shortCircuit]
  | shortCircuit => [assignment]
  | assignment => []

/-- The categories that are reached in so many steps. -/
def reach : Nat → Category → List Category
  | 0, c => [c]
  | n + 1, c => c :: c.wider.flatMap (reach n)

/-- The category and all that contain it. -/
def above (c : Category) : List Category := c.reach 18

end Category

/-- What an operator makes of the categories of its operands. -/
structure Production where
  left : Category
  right : Category
  whole : Category

/-- All but powers group to the left. -/
def BinaryOp.production : BinaryOp → Production
  | exponent => ⟨.update, .power, .power⟩
  | multiply | divide | modulo => ⟨.product, .power, .product⟩
  | add | subtract => ⟨.sum, .product, .sum⟩
  | leftShift | rightShift | unsignedRightShift => ⟨.shift, .sum, .shift⟩
  | less | lessEqual | greater | greaterEqual | instanceOf => ⟨.relation, .shift, .relation⟩
  | equal | notEqual | strictEqual | strictNotEqual => ⟨.equality, .relation, .equality⟩
  | bitwiseAnd => ⟨.bitwiseAnd, .equality, .bitwiseAnd⟩
  | bitwiseOr => ⟨.bitwiseOr, .bitwiseAnd, .bitwiseOr⟩
  | and => ⟨.conjunction, .bitwiseOr, .conjunction⟩
  | or => ⟨.disjunction, .conjunction, .disjunction⟩
  | nullish => ⟨.coalesceHead, .bitwiseOr, .coalescence⟩

/-! ## Derivations -/

mutual

/-- The marks are derived in a category, as the given tree. A construction takes a path without calls and without links
that may be skipped; with them a path is a call. -/
inductive Derives : Category → List Mark → Expr → Prop
  | widen {c c' : Category} {ms : List Mark} {e : Expr} : Derives c ms e → c' ∈ c.wider → Derives c' ms e
  | parens {ms : List Mark} {e : Expr} : Derives .assignment ms e → Derives .primary (inParens true ms) e
  | literal (value : Literal) : Derives .primary [value.mark] (.literal value default)
  | ident {name : String} : Kind.ofWord name ∈ identKinds → Derives .primary [.word name] (.ident name default)
  | this : Derives .primary [.word "this"] (.this default)
  | super : Derives .primary [.word "super"] (.super default)
  | array {mss : List (List Mark)} {es : List Expr} : DerivesAll mss es →
      Derives .primary (Mark.symbol .leftBracket :: commaMarks mss ++ [Mark.symbol .rightBracket]) (.array es default)
  | object {mss : List (List Mark)} {ps : List Property} : DerivesProperties mss ps →
      Derives .primary (inBraces (commaMarks mss)) (.object ps default)
  | function {name : Option String} {pss : List (List Mark)} {ps : List Binding} {ms : List Mark} {ss : List Stmt} :
      (∀ n ∈ name, Kind.ofWord n = .identifier) → DerivesBindings pss ps → DerivesBody ms ss →
      Derives .primary (.word "function" :: (name.map Mark.word).toList ++ callableMarks pss ms)
        (.function ⟨name.map (⟨·, default⟩), ps, none, some ⟨ss, default⟩, default⟩)
  | new {ms : List Mark} {callee : Expr} {mss : List (List Mark)} {args : List Expr} : Derives .member ms callee →
      DerivesAll mss args → Derives .member (.word "new" :: ms ++ inParens true (commaMarks mss))
        (.new callee args default)
  | property {ms : List Mark} {object : Expr} (name : PropertyName) : Derives .member ms object →
      Derives .member (ms ++ Mark.symbol .dot :: name.usedMarks id) (.member object name false default)
  | item {ms ks : List Mark} {object key : Expr} : Derives .member ms object → Derives .assignment ks key →
      Derives .member (ms ++ Mark.symbol .leftBracket :: ks ++ [Mark.symbol .rightBracket])
        (.index object key false default)
  | call {ms : List Mark} {callee : Expr} {mss : List (List Mark)} {args : List Expr} (optional : Bool) :
      Derives .call ms callee → DerivesAll mss args →
      Derives .call (ms ++ (if optional then [Mark.symbol .optionalChain] else []) ++ inParens true (commaMarks mss))
        (.call callee args optional default)
  | propertyOfCall {ms : List Mark} {object : Expr} (name : PropertyName) (optional : Bool) : Derives .call ms object →
      Derives .call (ms ++ Mark.symbol (if optional then .optionalChain else .dot) :: name.usedMarks id)
        (.member object name optional default)
  | itemOfCall {ms ks : List Mark} {object key : Expr} (optional : Bool) : Derives .call ms object →
      Derives .assignment ks key →
      Derives .call (ms ++ (if optional then [Mark.symbol .optionalChain] else [])
        ++ Mark.symbol .leftBracket :: ks ++ [Mark.symbol .rightBracket]) (.index object key optional default)
  | stepBefore {ms : List Mark} {target : Expr} (op : UpdateOp) : Derives .call ms target → target.isAssignable = true →
      Derives .update (.symbol op.symbol :: ms) (.update op true target default)
  | stepAfter {ms : List Mark} {target : Expr} (op : UpdateOp) : Derives .call ms target → target.isAssignable = true →
      Derives .update (ms ++ tighten [.symbol op.symbol]) (.update op false target default)
  | unary {ms : List Mark} {operand : Expr} (op : UnaryOp) : Derives .unary ms operand →
      Derives .unary (op.mark :: ms) (.unary op operand default)
  | binary {ls rs : List Mark} {left right : Expr} (op : BinaryOp) : Derives op.production.left ls left →
      Derives op.production.right rs right →
      Derives op.production.whole (ls ++ op.mark :: rs) (.binary op left right default)
  | assign {ts vs : List Mark} {target value : Expr} (op : AssignOp) : Derives .call ts target →
      target.isAssignable = true → Derives .assignment vs value →
      Derives .assignment (ts ++ Mark.symbol op.symbol :: vs) (.assign op target value default)

inductive DerivesAll : List (List Mark) → List Expr → Prop
  | nil : DerivesAll [] []
  | cons {ms : List Mark} {e : Expr} {mss : List (List Mark)} {es : List Expr} : Derives .assignment ms e →
      DerivesAll mss es → DerivesAll (ms :: mss) (e :: es)

inductive DerivesProperties : List (List Mark) → List Property → Prop
  | nil : DerivesProperties [] []
  | cons {ms : List Mark} {value : Expr} {mss : List (List Mark)} {ps : List Property} (key : ObjectKey) :
      Derives .assignment ms value → DerivesProperties mss ps →
      DerivesProperties ((key.mark :: .symbol .colon :: ms) :: mss) (⟨key, value, default⟩ :: ps)

/-- An expression behind the leading marks, or nothing. -/
inductive DerivesOptional : List Mark → List Mark → Option Expr → Prop
  | none {lead : List Mark} : DerivesOptional lead [] none
  | some {lead ms : List Mark} {e : Expr} : Derives .assignment ms e → DerivesOptional lead (lead ++ ms) (some e)

inductive DerivesBindings : List (List Mark) → List Binding → Prop
  | nil : DerivesBindings [] []
  | cons {name : String} {vs : List Mark} {value : Option Expr} {mss : List (List Mark)} {bs : List Binding} :
      Kind.ofWord name = .identifier → DerivesOptional [.symbol .assign] vs value → DerivesBindings mss bs →
      DerivesBindings ((.word name :: vs) :: mss) (⟨⟨name, default⟩, none, value, default⟩ :: bs)

inductive DerivesDeclaration : List Mark → Declaration → Prop
  | bindings {mss : List (List Mark)} {bs : List Binding} (kind : VariableKind) : bs ≠ [] → DerivesBindings mss bs →
      DerivesDeclaration (kind.mark :: commaMarks mss) ⟨kind, bs, default⟩

inductive DerivesInit : List Mark → Option ForInit → Prop
  | none : DerivesInit [] none
  | declaration {ms : List Mark} {d : Declaration} : DerivesDeclaration ms d → DerivesInit ms (some (.declaration d))
  | expression {ms : List Mark} {e : Expr} : Derives .assignment ms e → DerivesInit ms (some (.expression e))

/-- The marks are derived as the given statement. -/
inductive DerivesStmt : List Mark → Stmt → Prop
  | declaration {ms : List Mark} {d : Declaration} : DerivesDeclaration ms d →
      DerivesStmt (ms ++ [Mark.symbol .semicolon]) (.declaration d)
  | function {name : String} {pss : List (List Mark)} {ps : List Binding} {ms : List Mark} {ss : List Stmt} :
      Kind.ofWord name = .identifier → DerivesBindings pss ps → DerivesBody ms ss →
      DerivesStmt (.word "function" :: .word name :: callableMarks pss ms)
        (.function ⟨some ⟨name, default⟩, ps, none, some ⟨ss, default⟩, default⟩)
  | classDecl {name : String} {bs : List Mark} {base : Option Expr} {ms : List Mark} {members : List Member} :
      Kind.ofWord name = .identifier → DerivesOptional [.word "extends"] bs base → DerivesMembers ms members →
      DerivesStmt (.word "class" :: .word name :: bs ++ inBraces ms)
        (.classDecl ⟨name, default⟩ base [] members default)
  | block {ms : List Mark} {ss : List Stmt} : DerivesBody ms ss → DerivesStmt (inBraces ms) (.block ⟨ss, default⟩)
  | ifElse {ts cs es : List Mark} {test : Expr} {consequent : Stmt} {alternate : Option Stmt} :
      Derives .assignment ts test → DerivesStmt cs consequent → DerivesElse es alternate →
      DerivesStmt (.word "if" :: inParens true ts ++ cs ++ es) (.ifElse test consequent alternate default)
  | forLoop {is ts us bs : List Mark} {init : Option ForInit} {test update : Option Expr} {body : Stmt} :
      DerivesInit is init → DerivesOptional [] ts test → DerivesOptional [] us update → DerivesStmt bs body →
      DerivesStmt
        (.word "for" :: inParens true (is ++ Mark.symbol .semicolon :: ts ++ Mark.symbol .semicolon :: us) ++ bs)
        (.forLoop init test update body default)
  | forEach {name : String} {is bs : List Mark} {iterable : Expr} {body : Stmt} (kind : VariableKind) :
      Kind.ofWord name = .identifier → Derives .assignment is iterable → DerivesStmt bs body →
      DerivesStmt (.word "for" :: inParens true (kind.mark :: .word name :: .word "of" :: is) ++ bs)
        (.forEach kind ⟨name, default⟩ none iterable body default)
  | whileLoop {ts bs : List Mark} {test : Expr} {body : Stmt} : Derives .assignment ts test → DerivesStmt bs body →
      DerivesStmt (.word "while" :: inParens true ts ++ bs) (.whileLoop test body default)
  | ret : DerivesStmt [.word "return", .symbol .semicolon] (.ret none default)
  | retValue {ms : List Mark} {value : Expr} : Derives .assignment ms value →
      DerivesStmt (Mark.word "return" :: tighten ms ++ [Mark.symbol .semicolon]) (.ret (some value) default)
  | expression {ms : List Mark} {e : Expr} : Derives .assignment ms e → opensAmbiguously ms = false →
      DerivesStmt (ms ++ [Mark.symbol .semicolon]) (.expression e default)

inductive DerivesElse : List Mark → Option Stmt → Prop
  | none : DerivesElse [] none
  | some {ms : List Mark} {s : Stmt} : DerivesStmt ms s → DerivesElse (.word "else" :: ms) (some s)

inductive DerivesBody : List Mark → List Stmt → Prop
  | nil : DerivesBody [] []
  | cons {ms ns : List Mark} {s : Stmt} {ss : List Stmt} : DerivesStmt ms s → DerivesBody ns ss →
      DerivesBody (ms ++ ns) (s :: ss)

inductive DerivesMembers : List Mark → List Member → Prop
  | nil : DerivesMembers [] []
  | method {pss : List (List Mark)} {ps : List Binding} {ms ns : List Mark} {ss : List Stmt} {members : List Member}
      (name : PropertyName) (kind : MethodKind) (modifiers : Modifiers) : DerivesBindings pss ps → DerivesBody ms ss →
      DerivesMembers ns members →
      DerivesMembers (modifiers.marks ++ kind.marks ++ name.declaredMarks ++ callableMarks pss ms ++ ns)
        (.method name kind ⟨none, ps, none, some ⟨ss, default⟩, default⟩ modifiers [] default :: members)
  | field {vs ns : List Mark} {value : Option Expr} {members : List Member} (name : PropertyName)
      (modifiers : Modifiers) : DerivesOptional [.symbol .assign] vs value → DerivesMembers ns members →
      DerivesMembers (modifiers.marks ++ name.declaredMarks ++ vs ++ Mark.symbol .semicolon :: ns)
        (.field name none value modifiers [] default :: members)

end

/-! ## What the grammar forbids -/

theorem Category.mem_above_self (c : Category) : c ∈ c.above := List.mem_cons_self

theorem Category.mem_above_of_mem_wider {c : Category} : ∀ c' ∈ c.above, ∀ c'' ∈ c'.wider, c'' ∈ c.above := by
  cases c <;> decide

/-- The marks are those of the tree in parentheses. -/
def Enclosed (ms : List Mark) (e : Expr) : Prop := ∃ inner, ms = inParens true inner ∧ Derives .assignment inner e

/-- The tightest category in which a tree is derived without parentheses around it. -/
def Expr.tightest : Expr → Category
  | .literal .. | .ident .. | .this .. | .super .. | .array .. | .object .. | .function .. => .primary
  | .new .. => .member
  | .member _ _ optional _ | .index _ _ optional _ => if optional then .call else .member
  | .call .. => .call
  | .update .. => .update
  | .unary .. => .unary
  | .binary op .. => op.production.whole
  | .assign .. => .assignment

/-- What stands in a category tighter than its own is in parentheses. -/
theorem Derives.enclosed : ∀ {c : Category} {ms : List Mark} {e : Expr}, Derives c ms e →
    c ∈ e.tightest.above ∨ Enclosed ms e
  | _, _, _, .widen h hc => (Derives.enclosed h).imp_left fun h => Category.mem_above_of_mem_wider _ h _ hc
  | _, _, _, .parens h => .inr ⟨_, rfl, h⟩
  | _, _, _, .literal _ | _, _, _, .ident _ | _, _, _, .this | _, _, _, .super | _, _, _, .array _ | _, _, _, .object _
  | _, _, _, .function .. | _, _, _, .new .. | _, _, _, .property .. | _, _, _, .item .. | _, _, _, .call ..
  | _, _, _, .stepBefore .. | _, _, _, .stepAfter .. | _, _, _, .unary .. | _, _, _, .binary .. | _, _, _, .assign .. =>
    .inl (Category.mem_above_self _)
  | _, _, _, .propertyOfCall _ optional _ | _, _, _, .itemOfCall optional _ _ => by
    cases optional with
    | true => exact .inl (show _ ∈ Category.call.above by decide)
    | false => exact .inl (show _ ∈ Category.member.above by decide)

/-- The marks of a name or of a function without parentheses around it. -/
def Bare (ms : List Mark) : Expr → Prop
  | .ident name _ => ms = [.word name]
  | .function ⟨name, params, _, some ⟨ss, _⟩, _⟩ => ∃ pss body, DerivesBindings pss params ∧ DerivesBody body ss ∧
      ms = .word "function" :: (name.map fun id => Mark.word id.name).toList ++ callableMarks pss body
  | _ => True

/-- A name is derived as its own mark, and a function from its parameters and its body, or in parentheses. -/
theorem Derives.bare : ∀ {c : Category} {ms : List Mark} {e : Expr}, Derives c ms e → Bare ms e ∨ Enclosed ms e
  | _, _, _, .widen h _ => h.bare
  | _, _, _, .parens h => .inr ⟨_, rfl, h⟩
  | _, _, _, .ident _ => .inl rfl
  | _, _, _, @Derives.function name _ _ _ _ _ hparams hbody => .inl ⟨_, _, hparams, hbody, by cases name <;> rfl⟩
  | _, _, _, .literal _ | _, _, _, .this | _, _, _, .super | _, _, _, .array _ | _, _, _, .object _ | _, _, _, .new ..
  | _, _, _, .property .. | _, _, _, .item .. | _, _, _, .call .. | _, _, _, .propertyOfCall ..
  | _, _, _, .itemOfCall .. | _, _, _, .stepBefore .. | _, _, _, .stepAfter .. | _, _, _, .unary ..
  | _, _, _, .binary .. | _, _, _, .assign .. =>
    .inl trivial

/-- All operators between two operands. -/
def binaryOps : List BinaryOp :=
  [.add, .subtract, .multiply, .divide, .modulo, .exponent, .bitwiseAnd, .bitwiseOr, .leftShift, .rightShift,
    .unsignedRightShift, .equal, .notEqual, .strictEqual, .strictNotEqual, .less, .lessEqual, .greater, .greaterEqual,
    .instanceOf, .and, .or, .nullish]

theorem BinaryOp.mem_binaryOps (op : BinaryOp) : op ∈ binaryOps := by
  cases op <;> decide

/-- An expression that stands for any: operands matter neither for parentheses nor for categories. -/
def anyOperand : Expr := .this default

/-- Where `??` and another logical operator would meet, the operand's own category is not one that the place allows. -/
theorem BinaryOp.not_mem_above_of_mixesNullish : ∀ op ∈ binaryOps, ∀ op' ∈ binaryOps,
    (Expr.binary op' anyOperand anyOperand default).mixesNullish op = true →
      op.production.left ∉ op'.production.whole.above ∧ op.production.right ∉ op'.production.whole.above := by
  decide +kernel

/-- The three restrictions: in the marks of an operand of `??` an expression with another logical operator is in
parentheses, and the other way round; in those of a base, one with an operator in front of it; and in those of what is
constructed, a call and a link that may be skipped. -/
theorem Derives.restricted {ms : List Mark} {e : Expr} :
    (∀ op : BinaryOp, e.mixesNullish op = true → Derives op.production.left ms e ∨ Derives op.production.right ms e →
      Enclosed ms e) ∧
    (∀ op operand s, e = .unary op operand s → Derives BinaryOp.exponent.production.left ms e → Enclosed ms e) ∧
    (e.tightest = .call → Derives .member ms e → Enclosed ms e) := by
  refine ⟨fun op hmix h => ?_, ?_, fun htight h => ?_⟩
  · cases e with
    | binary op' left right s =>
      obtain ⟨hleft, hright⟩ := BinaryOp.not_mem_above_of_mixesNullish op op.mem_binaryOps op' op'.mem_binaryOps hmix
      rcases h with h | h
      · exact h.enclosed.resolve_left hleft
      · exact h.enclosed.resolve_left hright
    | _ => cases hmix
  · rintro op operand s rfl h
    exact h.enclosed.resolve_left (show _ ∉ Category.unary.above by decide)
  · have hmember := h.enclosed
    rw [htight] at hmember
    exact hmember.resolve_left (by decide)

end Vernacular
