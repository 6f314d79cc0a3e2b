import Vernacular.Script.Render

/-!
# Outlines of trees

The outline of a tree keeps what it says about the text: which stretches its nodes take, and which names and literals
stand in them. The parts of a node come in the order in which they stand in the text. Operators and modifiers leave no
trace, nor do the words that stand for themselves.

- `Program.outline`: the outline of a program;
- `Outline.texts`: its names and literals, from left to right;
- `Expr.outline_eq`: the outline of an expression is one node over its stretch.
-/

namespace Vernacular

/-- A stretch of text and its parts, or a name or literal. -/
inductive Outline where
  | text (s : String)
  | node (span : Span) (parts : List Outline)

namespace Outline

mutual

/-- The names and literals of an outline, from left to right. -/
def texts : Outline → List String
  | text s => [s]
  | node _ parts => textsOf parts

def textsOf : List Outline → List String
  | [] => []
  | o :: os => o.texts ++ textsOf os

end

theorem textsOf_append (os ps : List Outline) : textsOf (os ++ ps) = textsOf os ++ textsOf ps := by
  induction os with
  | nil => rfl
  | cons o os ih => rw [List.cons_append, textsOf, textsOf, ih, List.append_assoc]

theorem textsOf_node (span : Span) (parts : List Outline) : textsOf [node span parts] = textsOf parts := by
  rw [textsOf, texts, textsOf, List.append_nil]

end Outline

open Outline (text node)

/-! ## Names and literals -/

def Ident.outline (id : Ident) : Outline := node id.span [text id.name]

/-- The name of a type without the brackets behind it. -/
def bareType (name : String) : String := .ofList (name.toList.takeWhile (· != '['))

theorem bareType_foldl {lists : List String} (h : ∀ l ∈ lists, l = "[]") (s : String) :
    bareType (lists.foldl (· ++ ·) s) = bareType s := by
  induction lists generalizing s with
  | nil => rfl
  | cons l lists ih =>
    obtain ⟨rfl, hlists⟩ := List.forall_mem_cons.mp h
    have hbrackets : (s ++ "[]").toList.takeWhile (· != '[') = s.toList.takeWhile (· != '[') := by
      rw [String.toList_append, List.takeWhile_append]
      split
      · rename_i hlen
        rw [(List.takeWhile_prefix _).eq_of_length hlen]
        exact List.append_nil _
      · rfl
    rw [List.foldl_cons, ih hlists, bareType, hbrackets, bareType]

/-- The outline of the name of a type. -/
def Ident.typeOutline (id : Ident) : Outline := node id.span [text (bareType id.name)]

/-- Numbers, strings and templates with their delimiters. The words for the other values leave no trace. -/
def Literal.parts : Literal → List Outline
  | .boolean _ | .null => []
  | v => [.text v.text]

def PropertyName.outline : PropertyName → Outline
  | .plain s | .hashed s => .text s

def ObjectKey.outline (k : ObjectKey) : Outline := .text k.text

/-! ## Trees -/

mutual

def Expr.outline : Expr → Outline
  | .literal v s => node s v.parts
  | .ident n s => node s [text n]
  | .this s | .super s => node s []
  | .array es s => node s (exprOutlines es)
  | .object ps s => node s (propertyOutlines ps)
  | .function c => c.outline
  | .unary _ e s | .update _ _ e s => node s [e.outline]
  | .binary _ l r s => node s [l.outline, r.outline]
  | .assign _ t v s => node s [t.outline, v.outline]
  | .call c as _ s => node s (c.outline :: exprOutlines as)
  | .new c as s => node s (c.outline :: exprOutlines as)
  | .member o n _ s => node s [o.outline, n.outline]
  | .index o k _ s => node s [o.outline, k.outline]

def exprOutlines : List Expr → List Outline
  | [] => []
  | e :: es => e.outline :: exprOutlines es

def exprOutline? : Option Expr → List Outline
  | none => []
  | some e => [e.outline]

def Property.outline : Property → Outline
  | ⟨k, e, s⟩ => node s [k.outline, e.outline]

def propertyOutlines : List Property → List Outline
  | [] => []
  | p :: ps => p.outline :: propertyOutlines ps

def Binding.outline : Binding → Outline
  | ⟨i, t, v, s⟩ => node s (i.outline :: (t.toList.map Ident.typeOutline ++ exprOutline? v))

def bindingOutlines : List Binding → List Outline
  | [] => []
  | b :: bs => b.outline :: bindingOutlines bs

def Callable.outline : Callable → Outline
  | ⟨n, ps, r, b, s⟩ =>
    node s (n.toList.map Ident.outline ++ bindingOutlines ps ++ r.toList.map Ident.typeOutline ++ blockOutline? b)

def Block.outline : Block → Outline
  | ⟨ss, s⟩ => node s (stmtOutlines ss)

def blockOutline? : Option Block → List Outline
  | none => []
  | some b => [b.outline]

def Declaration.outline : Declaration → Outline
  | ⟨_, bs, s⟩ => node s (bindingOutlines bs)

def ForInit.outline : ForInit → Outline
  | .declaration d => d.outline
  | .expression e => e.outline

def initOutline? : Option ForInit → List Outline
  | none => []
  | some i => [i.outline]

def Stmt.outline : Stmt → Outline
  | .declaration d => d.outline
  | .function c => c.outline
  | .classDecl n b is ms s => node s (n.outline :: (exprOutline? b ++ is.map Ident.outline ++ memberOutlines ms))
  | .block b => b.outline
  | .ifElse t c a s => node s (t.outline :: c.outline :: stmtOutline? a)
  | .forLoop i t u b s => node s (initOutline? i ++ exprOutline? t ++ exprOutline? u ++ [b.outline])
  | .forEach _ i t e b s => node s (i.outline :: (t.toList.map Ident.typeOutline ++ [e.outline, b.outline]))
  | .whileLoop t b s => node s [t.outline, b.outline]
  | .ret e s => node s (exprOutline? e)
  | .expression e s => node s [e.outline]

def stmtOutline? : Option Stmt → List Outline
  | none => []
  | some s => [s.outline]

def stmtOutlines : List Stmt → List Outline
  | [] => []
  | s :: ss => s.outline :: stmtOutlines ss

def Member.outline : Member → Outline
  | .method n _ c _ ds s => node s (ds.map Ident.outline ++ [n.outline, c.outline])
  | .field n t v _ ds s =>
    node s (ds.map Ident.outline ++ n.outline :: (t.toList.map Ident.typeOutline ++ exprOutline? v))

def memberOutlines : List Member → List Outline
  | [] => []
  | m :: ms => m.outline :: memberOutlines ms

end

/-- The outline of a program. -/
def Program.outline (p : Program) : Outline := node p.span (stmtOutlines p.body)

/-! ## Lists and options -/

section Lists

@[simp] theorem exprOutlines_eq (es : List Expr) : exprOutlines es = es.map Expr.outline := by
  induction es with
  | nil => rfl
  | cons e es ih => rw [exprOutlines, ih, List.map_cons]

@[simp] theorem exprOutline?_eq (e : Option Expr) : exprOutline? e = e.toList.map Expr.outline := by
  cases e <;> rfl

@[simp] theorem propertyOutlines_eq (ps : List Property) : propertyOutlines ps = ps.map Property.outline := by
  induction ps with
  | nil => rfl
  | cons p ps ih => rw [propertyOutlines, ih, List.map_cons]

@[simp] theorem bindingOutlines_eq (bs : List Binding) : bindingOutlines bs = bs.map Binding.outline := by
  induction bs with
  | nil => rfl
  | cons b bs ih => rw [bindingOutlines, ih, List.map_cons]

@[simp] theorem blockOutline?_eq (b : Option Block) : blockOutline? b = b.toList.map Block.outline := by
  cases b <;> rfl

@[simp] theorem initOutline?_eq (i : Option ForInit) : initOutline? i = i.toList.map ForInit.outline := by
  cases i <;> rfl

@[simp] theorem stmtOutline?_eq (s : Option Stmt) : stmtOutline? s = s.toList.map Stmt.outline := by
  cases s <;> rfl

@[simp] theorem stmtOutlines_eq (ss : List Stmt) : stmtOutlines ss = ss.map Stmt.outline := by
  induction ss with
  | nil => rfl
  | cons s ss ih => rw [stmtOutlines, ih, List.map_cons]

@[simp] theorem memberOutlines_eq (ms : List Member) : memberOutlines ms = ms.map Member.outline := by
  induction ms with
  | nil => rfl
  | cons m ms ih => rw [memberOutlines, ih, List.map_cons]

end Lists

/-- The outline of an expression is one node over its stretch. -/
theorem Expr.outline_eq (e : Expr) : ∃ parts, e.outline = node e.span parts := by
  cases e with
  | function c =>
    obtain ⟨name, params, result, body, span⟩ := c
    exact ⟨_, rfl⟩
  | _ => exact ⟨_, rfl⟩

end Vernacular
