import Vernacular.Proofs.Json.RoundTrip
import Vernacular.Tree.Dump

/-!
# Trees are determined by their documents

Nodes are told apart by their kinds, operators and tags by their names, and absent parts are `null`, which is no
document of a part. So a document is that of one tree. Its fields have names from a table, and its strings and numbers
are written as they should be, so it can be read back.

- `Expr.toJson_inj`, `Stmt.toJson_inj`: one tree for a document, by induction on the tree;
- `Expr.isDump`, `Stmt.isDump`: documents of trees are well-formed.
-/

namespace Vernacular

open Json

/-! ## Documents of parts -/

namespace Json

/-- The names of fields in dumps. -/
def fieldNames : List String :=
  ["line", "column", "offset", "start", "end", "name", "span", "value", "quote", "type", "op", "body", "kind", "text",
    "String", "Number", "Template", "Boolean", "Identifier", "Private", "Computed", "Declaration",
    "Expression", "Keyword",
    "access", "is_static", "is_abstract", "elements", "properties", "operand", "prefix", "argument", "left", "right",
    "target", "callee", "arguments", "optional", "object", "property", "key", "type_annotation", "params",
    "return_type",
    "declarations", "default", "id", "init", "super_class", "implements", "members", "test", "consequent", "alternate",
    "update", "binding", "iterable", "expression", "function", "modifiers", "decorators", "token_type"]

/-- No name of a field has a character that would be escaped. -/
theorem plain_fieldNames : ∀ name ∈ fieldNames, Plain name := by decide

/-- A document with names from the table. -/
def IsDump (j : Json) : Prop := j.WellFormed fieldNames

def AreDumps (js : List Json) : Prop := WellFormedItems fieldNames js

def AreDumpFields (fields : List (String × Json)) : Prop := WellFormedFields fieldNames fields

@[simp] theorem areDumps_nil : AreDumps [] := trivial

@[simp] theorem areDumps_cons (j : Json) (js : List Json) : AreDumps (j :: js) ↔ j.IsDump ∧ AreDumps js := Iff.rfl

@[simp] theorem areDumpFields_nil : AreDumpFields [] := trivial

@[simp] theorem areDumpFields_cons (name : String) (j : Json) (fields : List (String × Json)) :
    AreDumpFields ((name, j) :: fields) ↔ name ∈ fieldNames ∧ j.IsDump ∧ AreDumpFields fields := Iff.rfl

/-- An object is a dump if its fields are known and hold dumps. -/
@[simp] theorem isDump_object (fields : List (String × Json)) : (object fields).IsDump ↔ AreDumpFields fields := Iff.rfl

@[simp] theorem isDump_array (items : List Json) : (array items).IsDump ↔ AreDumps items := Iff.rfl

@[simp] theorem isDump_null : null.IsDump := trivial

@[simp] theorem isDump_bool (b : Bool) : (bool b).IsDump := trivial

@[simp] theorem isDump_text (s : String) : (text s).IsDump := body_escape s

@[simp] theorem isDump_nat (n : Nat) : (nat n).IsDump := by
  show IsNumeral (toString n).toList
  rw [Nat.toString_eq_repr, Nat.toList_repr]
  exact isNumeral_toDigits n

/-- The kind of a node is a field like the others, so only the rest is asked for. -/
@[simp] theorem isDump_node (kind : String) (fields : List (String × Json)) :
    (node kind fields).IsDump ↔ AreDumpFields fields := by
  simp [node, fieldNames]

/-- A node tells its kind and its fields. -/
@[simp] theorem node_inj (kind kind' : String) (fields fields' : List (String × Json)) :
    node kind fields = node kind' fields' ↔ kind = kind' ∧ fields = fields' := by
  simp [node]

/-- A tagged value tells its tag and the value. -/
@[simp] theorem tagged_inj (tag tag' : String) (j j' : Json) : tagged tag j = tagged tag' j' ↔ tag = tag' ∧ j = j' := by
  simp [tagged]

/-- A value with a tag is not taken for a plain text: the former is an object. -/
@[simp] theorem tagged_ne_text (tag s : String) (j : Json) : tagged tag j ≠ text s := by simp [tagged, text]

@[simp] theorem text_ne_tagged (tag s : String) (j : Json) : text s ≠ tagged tag j := by simp [tagged, text]

/-- An optional value, of a kind that is never written as `null`. -/
theorem option_inj {α : Type} {f : α → Json} (hf : ∀ a b, f a = f b ↔ a = b) (hnull : ∀ a, f a ≠ null)
    (a b : Option α) : option f a = option f b ↔ a = b := by
  cases a with
  | none =>
    cases b with
    | none => simp
    | some b => simpa [option] using (hnull b).symm
  | some a =>
    cases b with
    | none => simpa [option] using hnull a
    | some b => simpa [option] using hf a b

/-- What may be missing is dumped as `null`, which is a dump as well. -/
theorem isDump_option {α : Type} {f : α → Json} (hf : ∀ a, (f a).IsDump) (a : Option α) : (option f a).IsDump := by
  cases a with
  | none => trivial
  | some a => exact hf a

/-- A list whose items are dumps is one. -/
theorem areDumps_map {α : Type} {f : α → Json} (hf : ∀ a, (f a).IsDump) (as : List α) : AreDumps (as.map f) := by
  induction as with
  | nil => trivial
  | cons a as ih => exact ⟨hf a, ih⟩

end Json

/-- A position can be read off its document: all three numbers are in it. -/
@[simp] theorem Position.toJson_inj (p q : Position) : p.toJson = q.toJson ↔ p = q := by
  cases p; cases q; simp [toJson]

@[simp] theorem Position.isDump (p : Position) : p.toJson.IsDump := by
  simp [toJson, fieldNames]

/-- So can a stretch, and whatever is made of stretches and texts. -/
@[simp] theorem Span.toJson_inj (s t : Span) : s.toJson = t.toJson ↔ s = t := by
  cases s; cases t; simp [toJson]

@[simp] theorem Span.isDump (s : Span) : s.toJson.IsDump := by
  simp [toJson, fieldNames]

@[simp] theorem Ident.toJson_inj (i j : Ident) : i.toJson = j.toJson ↔ i = j := by
  cases i; cases j; simp [toJson]

@[simp] theorem Ident.isDump (i : Ident) : i.toJson.IsDump := by
  simp [toJson, fieldNames]

@[simp] theorem Ident.option_inj (i j : Option Ident) : option Ident.toJson i = option Ident.toJson j ↔ i = j :=
  Json.option_inj toJson_inj (by simp [toJson]) i j

@[simp] theorem Ident.isDump_option (i : Option Ident) : (option Ident.toJson i).IsDump := Json.isDump_option isDump i

@[simp] theorem Ident.map_inj (is js : List Ident) : is.map Ident.toJson = js.map Ident.toJson ↔ is = js :=
  List.map_inj_right fun i j h => (toJson_inj i j).mp h

@[simp] theorem Ident.areDumps_map (is : List Ident) : AreDumps (is.map Ident.toJson) := Json.areDumps_map isDump is

@[simp] theorem VariableKind.toJson_inj (k l : VariableKind) : k.toJson = l.toJson ↔ k = l := by
  cases k <;> cases l <;> simp [toJson]

@[simp] theorem VariableKind.isDump (k : VariableKind) : k.toJson.IsDump := by
  cases k <;> simp [toJson]

/-- Literals of different kinds have different tags, and a string keeps its quotes apart from its text. -/
@[simp] theorem Literal.toJson_inj (v w : Literal) : v.toJson = w.toJson ↔ v = w := by
  cases v <;> cases w <;> simp [toJson, quoted]

@[simp] theorem Literal.isDump (v : Literal) : v.toJson.IsDump := by
  cases v <;> simp [toJson, quoted, tagged, fieldNames]

/-- A hashed name is told from a plain one with the same text. -/
@[simp] theorem PropertyName.toJson_inj (n m : PropertyName) : n.toJson = m.toJson ↔ n = m := by
  cases n <;> cases m <;> simp [toJson]

@[simp] theorem PropertyName.isDump (n : PropertyName) : n.toJson.IsDump := by
  cases n <;> simp [toJson, tagged, fieldNames]

/-- Keys of the three kinds have different tags. -/
@[simp] theorem ObjectKey.toJson_inj (k l : ObjectKey) : k.toJson = l.toJson ↔ k = l := by
  cases k <;> cases l <;> simp [toJson, quoted]

@[simp] theorem ObjectKey.isDump (k : ObjectKey) : k.toJson.IsDump := by
  cases k <;> simp [toJson, quoted, tagged, fieldNames]

@[simp] theorem Access.toJson_inj (a b : Access) : a.toJson = b.toJson ↔ a = b := by
  cases a <;> cases b <;> simp [toJson]

@[simp] theorem Access.isDump (a : Access) : a.toJson.IsDump := by
  cases a <;> simp [toJson]

/-- Modifiers are dumped one by one, those that are not set included. -/
@[simp] theorem Modifiers.toJson_inj (m n : Modifiers) : m.toJson = n.toJson ↔ m = n := by
  have hnull (a : Access) : a.toJson ≠ null := by cases a <;> simp [Access.toJson, Json.text]
  cases m; cases n; simp [toJson, Json.option_inj Access.toJson_inj hnull]

@[simp] theorem Modifiers.isDump (m : Modifiers) : m.toJson.IsDump := by
  simp [toJson, Json.isDump_option, fieldNames]

@[simp] theorem MethodKind.toJson_inj (k l : MethodKind) : k.toJson = l.toJson ↔ k = l := by
  cases k <;> cases l <;> simp [toJson]

@[simp] theorem MethodKind.isDump (k : MethodKind) : k.toJson.IsDump := by
  cases k <;> simp [toJson]

/-- No two operators have the same label. -/
@[simp] theorem BinaryOp.label_inj (op op' : BinaryOp) : op.label = op'.label ↔ op = op' := by
  cases op <;> cases op' <;> simp [label]

@[simp] theorem UnaryOp.label_inj (op op' : UnaryOp) : op.label = op'.label ↔ op = op' := by
  cases op <;> cases op' <;> simp [label]

@[simp] theorem UpdateOp.label_inj (op op' : UpdateOp) : op.label = op'.label ↔ op = op' := by
  cases op <;> cases op' <;> simp [label]

@[simp] theorem AssignOp.label_inj (op op' : AssignOp) : op.label = op'.label ↔ op = op' := by
  cases op <;> cases op' <;> simp [label]

/-- A name of a property is not taken for a computed key. -/
@[simp] theorem PropertyName.toJson_ne_computed (n : PropertyName) (j : Json) : n.toJson ≠ tagged "Computed" j := by
  cases n <;> simp [toJson]

@[simp] theorem PropertyName.computed_ne_toJson (n : PropertyName) (j : Json) : tagged "Computed" j ≠ n.toJson :=
  (n.toJson_ne_computed j).symm

/-! ## Documents of trees -/

/-- Expressions are objects, so that a missing one, which is `null`, is told from all that are there. -/
@[simp] theorem Expr.toJson_ne_null (e : Expr) : e.toJson ≠ null := by
  cases e <;> simp [toJson, node]

@[simp] theorem Expr.null_ne_toJson (e : Expr) : null ≠ e.toJson := e.toJson_ne_null.symm

/-- Statements are objects as well. -/
@[simp] theorem Stmt.toJson_ne_null (s : Stmt) : s.toJson ≠ null := by
  cases s <;> simp [toJson, node]

@[simp] theorem Stmt.null_ne_toJson (s : Stmt) : null ≠ s.toJson := s.toJson_ne_null.symm

mutual

/-- An expression is determined by its document. -/
theorem Expr.toJson_inj : ∀ e e' : Expr, e.toJson = e'.toJson ↔ e = e'
  | .literal v s, e' => by cases e' <;> simp [Expr.toJson]
  | .ident n s, e' => by cases e' <;> simp [Expr.toJson]
  | .this s, e' => by cases e' <;> simp [Expr.toJson]
  | .super s, e' => by cases e' <;> simp [Expr.toJson]
  | .array es s, e' => by cases e' <;> simp [Expr.toJson, exprsToJson_inj es]
  | .object ps s, e' => by cases e' <;> simp [Expr.toJson, propertiesToJson_inj ps]
  | .function c, e' => by
    cases e' with
    | binary op l r s => cases h : op.isLogical <;> simp [Expr.toJson, h]
    | _ => simp [Expr.toJson, c.fields_inj]
  | .unary op e s, e' => by cases e' <;> simp [Expr.toJson, e.toJson_inj]
  | .update op before e s, e' => by cases e' <;> simp [Expr.toJson, e.toJson_inj]
  | .binary op l r s, e' => by
    cases e' with
    | binary op' l' r' s' =>
      -- The operator decides about the kind of the node.
      refine ⟨fun h => ?_, congrArg Expr.toJson⟩
      simp only [Expr.toJson, node_inj, List.cons.injEq, Prod.mk.injEq, text_inj, BinaryOp.label_inj, l.toJson_inj,
        r.toJson_inj, Span.toJson_inj] at h
      obtain ⟨-, ⟨-, rfl⟩, ⟨-, rfl⟩, ⟨-, rfl⟩, ⟨-, rfl⟩, -⟩ := h
      rfl
    | _ => cases h : op.isLogical <;> simp [Expr.toJson, h]
  | .assign op t v s, e' => by cases e' <;> simp [Expr.toJson, t.toJson_inj, v.toJson_inj]
  | .call c as opt s, e' => by cases e' <;> simp [Expr.toJson, c.toJson_inj, exprsToJson_inj as]
  | .new c as s, e' => by cases e' <;> simp [Expr.toJson, c.toJson_inj, exprsToJson_inj as]
  | .member o n opt s, e' => by cases e' <;> simp [Expr.toJson, o.toJson_inj]
  | .index o k opt s, e' => by cases e' <;> simp [Expr.toJson, o.toJson_inj, k.toJson_inj]
termination_by structural e => e

/-- Lists of expressions, item by item. -/
theorem exprsToJson_inj : ∀ es es' : List Expr, exprsToJson es = exprsToJson es' ↔ es = es'
  | [], es' => by cases es' <;> simp [exprsToJson]
  | e :: es, es' => by cases es' <;> simp [exprsToJson, e.toJson_inj, exprsToJson_inj es]
termination_by structural es => es

/-- An expression that may be missing. -/
theorem exprToJson?_inj : ∀ e e' : Option Expr, exprToJson? e = exprToJson? e' ↔ e = e'
  | none, e' => by cases e' <;> simp [exprToJson?]
  | some e, e' => by cases e' <;> simp [exprToJson?, e.toJson_inj]
termination_by structural e => e

/-- Keys and values of an object literal. -/
theorem propertiesToJson_inj : ∀ ps ps' : List Property, propertiesToJson ps = propertiesToJson ps' ↔ ps = ps'
  | [], [] => by simp
  | [], ⟨_, _, _⟩ :: _ | ⟨_, _, _⟩ :: _, [] => by simp [propertiesToJson]
  | ⟨k, e, s⟩ :: ps, ⟨k', e', s'⟩ :: ps' => by
    simp [propertiesToJson, e.toJson_inj, propertiesToJson_inj ps]
termination_by structural ps => ps

/-- Bindings are dumped under two names each, as variables and as parameters, and can be told apart under both. -/
theorem bindingsToJson_inj (idField valueField : String) : ∀ bs bs' : List Binding,
    bindingsToJson idField valueField bs = bindingsToJson idField valueField bs' ↔ bs = bs'
  | [], [] => by simp
  | [], ⟨_, _, _, _⟩ :: _ | ⟨_, _, _, _⟩ :: _, [] => by simp [bindingsToJson]
  | ⟨i, t, v, s⟩ :: bs, ⟨i', t', v', s'⟩ :: bs' => by
    simp [bindingsToJson, exprToJson?_inj v, bindingsToJson_inj idField valueField bs]
termination_by structural bs => bs

/-- A callable can be read off its fields, whichever node they are part of. -/
theorem Callable.fields_inj : ∀ c c' : Callable, c.fields = c'.fields ↔ c = c'
  | ⟨n, ps, r, b, s⟩, ⟨n', ps', r', b', s'⟩ => by
    simp [Callable.fields, bindingsToJson_inj _ _ ps, blockToJson?_inj b]
termination_by structural c => c

/-- A block, of which only the fields are dumped. -/
theorem Block.fields_inj : ∀ b b' : Block, b.fields = b'.fields ↔ b = b'
  | ⟨ss, s⟩, ⟨ss', s'⟩ => by simp [Block.fields, stmtsToJson_inj ss]
termination_by structural b => b

/-- The body of a callable that may have none. -/
theorem blockToJson?_inj : ∀ b b' : Option Block, blockToJson? b = blockToJson? b' ↔ b = b'
  | none, b' => by cases b' <;> simp [blockToJson?]
  | some b, b' => by cases b' <;> simp [blockToJson?, b.fields_inj]
termination_by structural b => b

theorem Declaration.fields_inj : ∀ d d' : Declaration, d.fields = d'.fields ↔ d = d'
  | ⟨k, bs, s⟩, ⟨k', bs', s'⟩ => by simp [Declaration.fields, bindingsToJson_inj _ _ bs]
termination_by structural d => d

/-- What a loop starts with: a declaration and an expression have different tags. -/
theorem initToJson?_inj : ∀ i i' : Option ForInit, initToJson? i = initToJson? i' ↔ i = i'
  | none, none => by simp
  | none, some (.declaration _) | none, some (.expression _) => by simp [initToJson?, tagged]
  | some (.declaration _), none | some (.expression _), none => by simp [initToJson?, tagged]
  | some (.declaration _), some (.expression _) | some (.expression _), some (.declaration _) => by simp [initToJson?]
  | some (.declaration d), some (.declaration d') => by simp [initToJson?, d.fields_inj]
  | some (.expression e), some (.expression e') => by simp [initToJson?, e.toJson_inj]
termination_by structural i => i

/-- A statement is determined by its document. -/
theorem Stmt.toJson_inj : ∀ s s' : Stmt, s.toJson = s'.toJson ↔ s = s'
  | .declaration d, s' => by cases s' <;> simp [Stmt.toJson, d.fields_inj]
  | .function c, s' => by cases s' <;> simp [Stmt.toJson, c.fields_inj]
  | .classDecl n b is ms s, s' => by cases s' <;> simp [Stmt.toJson, exprToJson?_inj b, membersToJson_inj ms]
  | .block b, s' => by cases s' <;> simp [Stmt.toJson, b.fields_inj]
  | .ifElse t c a s, s' => by cases s' <;> simp [Stmt.toJson, t.toJson_inj, c.toJson_inj, stmtToJson?_inj a]
  | .forLoop i t u b s, s' => by
    cases s' <;> simp [Stmt.toJson, initToJson?_inj i, exprToJson?_inj t, exprToJson?_inj u, b.toJson_inj]
  | .forEach k i t e b s, s' => by cases s' <;> simp [Stmt.toJson, e.toJson_inj, b.toJson_inj]
  | .whileLoop t b s, s' => by cases s' <;> simp [Stmt.toJson, t.toJson_inj, b.toJson_inj]
  | .ret e s, s' => by cases s' <;> simp [Stmt.toJson, exprToJson?_inj e]
  | .expression e s, s' => by cases s' <;> simp [Stmt.toJson, e.toJson_inj]
termination_by structural s => s

/-- Lists of statements, item by item. -/
theorem stmtsToJson_inj : ∀ ss ss' : List Stmt, stmtsToJson ss = stmtsToJson ss' ↔ ss = ss'
  | [], ss' => by cases ss' <;> simp [stmtsToJson]
  | s :: ss, ss' => by cases ss' <;> simp [stmtsToJson, s.toJson_inj, stmtsToJson_inj ss]
termination_by structural ss => ss

theorem stmtToJson?_inj : ∀ s s' : Option Stmt, stmtToJson? s = stmtToJson? s' ↔ s = s'
  | none, s' => by cases s' <;> simp [stmtToJson?]
  | some s, s' => by cases s' <;> simp [stmtToJson?, s.toJson_inj]
termination_by structural s => s

/-- Members of a class: methods and fields are nodes of different kinds. -/
theorem membersToJson_inj : ∀ ms ms' : List Member, membersToJson ms = membersToJson ms' ↔ ms = ms'
  | [], [] => by simp
  | [], .method .. :: _ | [], .field .. :: _ | .method .. :: _, [] | .field .. :: _, [] => by simp [membersToJson]
  | .method .. :: _, .field .. :: _ | .field .. :: _, .method .. :: _ => by simp [membersToJson]
  | .method n k c m ds s :: ms, .method n' k' c' m' ds' s' :: ms' => by
    simp [membersToJson, c.fields_inj, membersToJson_inj ms]
  | .field n t v m ds s :: ms, .field n' t' v' m' ds' s' :: ms' => by
    simp [membersToJson, exprToJson?_inj v, membersToJson_inj ms]
termination_by structural ms => ms

end

mutual

/-- Whatever the expression, its document has known fields only, so that it can be written and read back. By
induction on the tree, with one case for each kind of node and one companion for each kind of list. -/
theorem Expr.isDump : ∀ e : Expr, e.toJson.IsDump
  | .literal v s => by simp [Expr.toJson, fieldNames]
  | .ident n s => by simp [Expr.toJson, fieldNames]
  | .this s => by simp [Expr.toJson, fieldNames]
  | .super s => by simp [Expr.toJson, fieldNames]
  | .array es s => by simp [Expr.toJson, exprs_areDumps es, fieldNames]
  | .object ps s => by simp [Expr.toJson, properties_areDumps ps, fieldNames]
  | .function c => by simp [Expr.toJson, c.areDumpFields]
  | .unary op e s => by simp [Expr.toJson, e.isDump, fieldNames]
  | .update op before e s => by simp [Expr.toJson, e.isDump, fieldNames]
  | .binary op l r s => by simp [Expr.toJson, l.isDump, r.isDump, fieldNames]
  | .assign op t v s => by simp [Expr.toJson, t.isDump, v.isDump, fieldNames]
  | .call c as opt s => by simp [Expr.toJson, c.isDump, exprs_areDumps as, fieldNames]
  | .new c as s => by simp [Expr.toJson, c.isDump, exprs_areDumps as, fieldNames]
  | .member o n opt s => by simp [Expr.toJson, o.isDump, fieldNames]
  | .index o k opt s => by simp [Expr.toJson, o.isDump, k.isDump, tagged, fieldNames]

theorem exprs_areDumps : ∀ es : List Expr, AreDumps (exprsToJson es)
  | [] => by simp [exprsToJson]
  | e :: es => by simp [exprsToJson, e.isDump, exprs_areDumps es]

theorem optExpr_isDump : ∀ e : Option Expr, (exprToJson? e).IsDump
  | none => by simp [exprToJson?]
  | some e => by simp [exprToJson?, e.isDump]

theorem properties_areDumps : ∀ ps : List Property, AreDumps (propertiesToJson ps)
  | [] => by simp [propertiesToJson]
  | ⟨k, e, s⟩ :: ps => by simp [propertiesToJson, e.isDump, properties_areDumps ps, fieldNames]

/-- Bindings, under names of fields that are known. -/
theorem bindings_areDumps {idField valueField : String} (hid : idField ∈ fieldNames)
    (hvalue : valueField ∈ fieldNames) : ∀ bs : List Binding, AreDumps (bindingsToJson idField valueField bs)
  | [] => by simp [bindingsToJson]
  | ⟨i, t, v, s⟩ :: bs => by
    have hmore := bindings_areDumps hid hvalue bs
    simp only [bindingsToJson, areDumps_cons, isDump_object, areDumpFields_cons, hid, hvalue, hmore, optExpr_isDump v]
    simp [fieldNames]

/-- The fields of a callable are known. -/
theorem Callable.areDumpFields : ∀ c : Callable, AreDumpFields c.fields
  | ⟨n, ps, r, b, s⟩ => by
    have hparams : AreDumps (bindingsToJson "name" "default" ps) :=
      bindings_areDumps (by simp [fieldNames]) (by simp [fieldNames]) ps
    simp [Callable.fields, hparams, optBlock_isDump b, fieldNames]

theorem Block.areDumpFields : ∀ b : Block, AreDumpFields b.fields
  | ⟨ss, s⟩ => by simp [Block.fields, stmts_areDumps ss, fieldNames]

theorem optBlock_isDump : ∀ b : Option Block, (blockToJson? b).IsDump
  | none => by simp [blockToJson?]
  | some b => by simp [blockToJson?, b.areDumpFields]

theorem Declaration.areDumpFields : ∀ d : Declaration, AreDumpFields d.fields
  | ⟨k, bs, s⟩ => by
    have hbindings : AreDumps (bindingsToJson "id" "init" bs) :=
      bindings_areDumps (by simp [fieldNames]) (by simp [fieldNames]) bs
    simp [Declaration.fields, hbindings, fieldNames]

theorem optInit_isDump : ∀ i : Option ForInit, (initToJson? i).IsDump
  | none => by simp [initToJson?]
  | some (.declaration d) => by simp [initToJson?, tagged, d.areDumpFields, fieldNames]
  | some (.expression e) => by simp [initToJson?, tagged, e.isDump, fieldNames]

/-- Whatever the statement, its document has known fields only. -/
theorem Stmt.isDump : ∀ s : Stmt, s.toJson.IsDump
  | .declaration d => by simp [Stmt.toJson, d.areDumpFields]
  | .function c => by simp [Stmt.toJson, c.areDumpFields]
  | .classDecl n b is ms s => by simp [Stmt.toJson, optExpr_isDump b, members_areDumps ms, fieldNames]
  | .block b => by simp [Stmt.toJson, b.areDumpFields]
  | .ifElse t c a s => by simp [Stmt.toJson, t.isDump, c.isDump, optStmt_isDump a, fieldNames]
  | .forLoop i t u b s => by
    simp [Stmt.toJson, optInit_isDump i, optExpr_isDump t, optExpr_isDump u, b.isDump, fieldNames]
  | .forEach k i t e b s => by simp [Stmt.toJson, e.isDump, b.isDump, fieldNames]
  | .whileLoop t b s => by simp [Stmt.toJson, t.isDump, b.isDump, fieldNames]
  | .ret e s => by simp [Stmt.toJson, optExpr_isDump e, fieldNames]
  | .expression e s => by simp [Stmt.toJson, e.isDump, fieldNames]

theorem stmts_areDumps : ∀ ss : List Stmt, AreDumps (stmtsToJson ss)
  | [] => by simp [stmtsToJson]
  | s :: ss => by simp [stmtsToJson, s.isDump, stmts_areDumps ss]

theorem optStmt_isDump : ∀ s : Option Stmt, (stmtToJson? s).IsDump
  | none => by simp [stmtToJson?]
  | some s => by simp [stmtToJson?, s.isDump]

/-- Members of a class. -/
theorem members_areDumps : ∀ ms : List Member, AreDumps (membersToJson ms)
  | [] => by simp [membersToJson]
  | .method n k c m ds s :: ms => by simp [membersToJson, c.areDumpFields, members_areDumps ms, fieldNames]
  | .field n t v m ds s :: ms => by simp [membersToJson, optExpr_isDump v, members_areDumps ms, fieldNames]

end

end Vernacular
