import Vernacular.Check.Walk

/-!
# What a check reports

A check keeps a stack of scopes that it opens, fills and leaves. What it reports has a definition without any such
state. `Program.uses` lists what there is to look up, in the order of the text: names, each with all that can be seen
where it stands, types, and the classes that are reached on the way. The names that can be seen are only ever passed
down: to the parts of a statement, and with what a statement declares to the statements after it. `findings` judges that
list.

- `Checker.Ran`: between two states of a check lies a list of uses; what was found grows by the findings among them, and
  the scopes only by names in the innermost one;
- `Expr.check_ran`, `Stmt.check_ran`: checking a tree does what its uses say, by induction on the tree;
- `Program.check_errors`: what a check without a bound on its errors reports.
-/

namespace Vernacular

variable {s t : Scopes} {names : List String}

/-! ## Uses -/

/-- What a check comes across. -/
inductive Use where
  /-- A name is used where `visible` can be seen. -/
  | name (name : String) (position : Position) (visible : List String)
  /-- A type is named. -/
  | type (type : Ident)
  /-- A class is reached, which is a type from then on. -/
  | reached (name : String)
deriving DecidableEq, Repr

/-- The use of a type, if one is named. -/
def annotationUses (type : Option Ident) : List Use := type.toList.map .type

/-- The names of functions and classes among statements: all of those statements see them. -/
def hoisted (body : List Stmt) : List String :=
  body.filterMap fun
    | .function callable => callable.name.map Ident.name
    | .classDecl name _ _ _ _ => some name.name
    | _ => none

def boundNames (bindings : List Binding) : List String := bindings.map fun b => b.id.name

def ForInit.declares : ForInit → List String
  | declaration d => boundNames d.bindings
  | expression _ => []

mutual

/-- The names that a statement declares for the statements after it. Functions are hoisted instead, and a class that is
a branch or the body of a loop is a name only inside some other scope (`top` is false there). -/
def Stmt.declares (top : Bool) : Stmt → List String
  | .declaration d => boundNames d.bindings
  | .classDecl name _ _ _ _ => if top then [] else [name.name]
  | .ifElse _ consequent alternate _ => consequent.declares top ++ alternateDeclares top alternate
  | .whileLoop _ body _ => body.declares top
  | .function _ | .block _ | .forLoop .. | .forEach .. | .ret .. | .expression .. => []

def alternateDeclares (top : Bool) : Option Stmt → List String
  | none => []
  | some s => s.declares top

end

mutual

/-- The uses in an expression that sees the names `visible`. -/
def Expr.uses (visible : List String) : Expr → List Use
  | .ident name span => [.name name span.start visible]
  | .literal .. | .this .. | .super .. => []
  | .array items _ => exprUses visible items
  | .object properties _ => propertyUses visible properties
  | .function callable => callable.uses visible
  | .unary _ e _ => e.uses visible
  | .update _ _ e _ => e.uses visible
  | .binary _ l r _ => l.uses visible ++ r.uses visible
  | .assign _ t v _ => t.uses visible ++ v.uses visible
  | .call e args _ _ => e.uses visible ++ exprUses visible args
  | .new e args _ => e.uses visible ++ exprUses visible args
  | .member o _ _ _ => o.uses visible
  | .index o k _ _ => o.uses visible ++ k.uses visible

def exprUses (visible : List String) : List Expr → List Use
  | [] => []
  | e :: es => e.uses visible ++ exprUses visible es

def valueUses (visible : List String) : Option Expr → List Use
  | none => []
  | some e => e.uses visible

def propertyUses (visible : List String) : List Property → List Use
  | [] => []
  | ⟨_, e, _⟩ :: ps => e.uses visible ++ propertyUses visible ps

/-- A variable is seen in its own value and after it. -/
def variableUses (visible : List String) : List Binding → List Use
  | [] => []
  | ⟨id, type, value, _⟩ :: bs =>
    annotationUses type ++ valueUses (id.name :: visible) value ++ variableUses (id.name :: visible) bs

/-- A parameter is seen after its default. -/
def paramUses (visible : List String) : List Binding → List Use
  | [] => []
  | ⟨id, type, value, _⟩ :: bs => annotationUses type ++ valueUses visible value ++ paramUses (id.name :: visible) bs

/-- All of a callable sees its own name. -/
def Callable.uses (visible : List String) : Callable → List Use
  | ⟨name, params, result, body, _⟩ =>
    let visible := (name.map Ident.name).toList ++ visible
    paramUses visible params ++ annotationUses result ++ bodyUses (boundNames params ++ visible) body

def bodyUses (visible : List String) : Option Block → List Use
  | none => []
  | some ⟨body, _⟩ => stmtUses false (hoisted body ++ visible) body

def initUses (visible : List String) : Option ForInit → List Use
  | none => []
  | some (.declaration ⟨_, bindings, _⟩) => variableUses visible bindings
  | some (.expression e) => e.uses visible

/-- The uses in a statement; `top` says whether the names it declares are global. -/
def Stmt.uses (top : Bool) (visible : List String) : Stmt → List Use
  | .declaration ⟨_, bindings, _⟩ => variableUses visible bindings
  | .function callable => callable.uses visible
  | .classDecl name base _ members _ =>
    let visible := if top then visible else name.name :: visible
    .reached name.name :: (valueUses visible base ++ memberUses visible members)
  | .block ⟨body, _⟩ => stmtUses false (hoisted body ++ visible) body
  | .ifElse test consequent alternate _ =>
    test.uses visible ++ consequent.uses top visible ++ alternateUses top (consequent.declares top ++ visible) alternate
  | .forLoop init test update body _ =>
    let inside := (init.map ForInit.declares).getD [] ++ visible
    initUses visible init ++ valueUses inside test ++ valueUses inside update ++ body.uses false inside
  | .forEach _ id type iterable body _ =>
    iterable.uses visible ++ annotationUses type ++ body.uses false (id.name :: visible)
  | .whileLoop test body _ => test.uses visible ++ body.uses top visible
  | .ret value _ => valueUses visible value
  | .expression e _ => e.uses visible

/-- Statements in a row: each sees what those before it declare. -/
def stmtUses (top : Bool) (visible : List String) : List Stmt → List Use
  | [] => []
  | s :: ss => s.uses top visible ++ stmtUses top (s.declares top ++ visible) ss

def alternateUses (top : Bool) (visible : List String) : Option Stmt → List Use
  | none => []
  | some s => s.uses top visible

def memberUses (visible : List String) : List Member → List Use
  | [] => []
  | .method _ _ callable _ _ _ :: ms => callable.uses visible ++ memberUses visible ms
  | .field _ type value _ _ _ :: ms => annotationUses type ++ valueUses visible value ++ memberUses visible ms

end

/-- The uses in a program, all of which sees its functions and classes. -/
def Program.uses (p : Program) : List Use := stmtUses true (hoisted p.body) p.body

/-! ## Findings -/

/-- A written type without the list brackets at its end. -/
def stripLists (cs : List Char) : List Char :=
  if ['[', ']'] <:+ cs then stripLists (cs.take (cs.length - 2)) else cs
termination_by cs.length
decreasing_by
  have := List.IsSuffix.length_le ‹_›
  simp only [List.length_take, List.length_cons, List.length_nil] at this ⊢
  omega

/-- What is wrong with a use when `known` are the types. No name is suggested in place of an unknown one. -/
def Use.fault? (options : CheckOptions) (known : List String) : Use → Option SemanticError
  | name n position visible =>
    if n ∈ options.names ∨ n ∈ visible then none else some (.undefinedName n position none)
  | type t => if String.ofList (stripLists t.name.toList) ∈ known then none else some (.unknownType t.name t.span.start)
  | reached _ => none

/-- The classes that are reached among uses. -/
def reachedClasses (us : List Use) : List String :=
  us.filterMap fun
    | .reached n => some n
    | _ => none

/-- What is wrong with uses, the types `known` and the classes reached earlier being types. -/
def findings (options : CheckOptions) (known : List String) : List Use → List SemanticError
  | [] => []
  | u :: us => (u.fault? options known).toList ++ findings options (reachedClasses [u] ++ known) us

/-- A class, with its number among `classes`, is at fault if one before it has its name. -/
def duplicate? (classes : List Ident) : Ident × Nat → Option SemanticError
  | (id, i) =>
    if ∃ earlier ∈ classes.take i, earlier.name = id.name then some (.duplicateClass id.name id.span.start) else none

/-- The classes that have the name of a class before them. -/
def duplicates (classes : List Ident) : List SemanticError :=
  classes.zipIdx.filterMap (duplicate? classes)

/-- An error without the suggestion of a name. -/
def SemanticError.plain : SemanticError → SemanticError
  | undefinedName n p _ => undefinedName n p none
  | e => e

theorem reachedClasses_append (us vs : List Use) :
    reachedClasses (us ++ vs) = reachedClasses us ++ reachedClasses vs := List.filterMap_append

/-- Only which types are known counts. -/
theorem findings_congr (options : CheckOptions) {known known' : List String} (h : ∀ n, n ∈ known ↔ n ∈ known')
    (us : List Use) : findings options known us = findings options known' us := by
  induction us generalizing known known' with
  | nil => rfl
  | cons u us ih =>
    have hu : u.fault? options known = u.fault? options known' := by
      cases u <;> simp only [Use.fault?, h]
    have hk : ∀ n, n ∈ reachedClasses [u] ++ known ↔ n ∈ reachedClasses [u] ++ known' := by
      simp [h]
    rw [findings, findings, hu, ih hk]

/-- Findings in a row of uses: the classes that were reached among the first ones are types for the others. -/
theorem findings_append (options : CheckOptions) (known : List String) (us vs : List Use) :
    findings options known (us ++ vs) =
      findings options known us ++ findings options (reachedClasses us ++ known) vs := by
  induction us generalizing known with
  | nil => rfl
  | cons u us ih =>
    rw [List.cons_append, findings, findings, ih, List.append_assoc]
    congr 2
    refine findings_congr options (fun n => ?_) vs
    simp only [← List.singleton_append (l := us), reachedClasses_append, List.mem_append, or_assoc, or_left_comm]

/-! ## Scopes as a list -/

namespace Scopes

/-- A scope is always open. -/
theorem exists_toList (s : Scopes) : ∃ scope outer, s.toList = scope :: outer := by
  cases h : s.toList with
  | nil => simp [toList] at h
  | cons scope outer => exact ⟨scope, outer, rfl⟩

theorem current_of_toList {scope : Scope} {outer : List Scope} (h : s.toList = scope :: outer) : s.current = scope := by
  obtain ⟨inner, globals, opened⟩ := s
  cases inner <;> cases h <;> rfl

/-- A declaration puts a name in front of those of the innermost scope. -/
theorem toList_declare {scope : Scope} {outer : List Scope} (h : s.toList = scope :: outer) (name : String)
    (place : Span) : (s.declare name place).toList = { scope with names := (name, place) :: scope.names } :: outer := by
  obtain ⟨inner, globals, opened⟩ := s
  cases inner <;> cases h <;> rfl

/-- Leaving a scope inside another one leads back to the other one. -/
theorem toList_exit {scope : Scope} (h : t.toList = scope :: s.toList) : t.exit.toList = s.toList := by
  obtain ⟨inner, globals, opened⟩ := t
  cases inner with
  | nil =>
    obtain ⟨_, _, hs⟩ := s.exists_toList
    rw [hs] at h
    cases h
  | cons scope' inner => exact (List.cons.inj h).2

/-- A name is declared if some scope has it. -/
theorem isDeclared_iff (s : Scopes) (name : String) :
    s.isDeclared name = true ↔ ∃ scope ∈ s.toList, name ∈ scope.names.map Prod.fst := by
  rw [isDeclared, lookup?, List.findSome?_isSome_iff]
  simp [List.lookup_isSome_iff]

/-- Exactly the names `visible` are declared. -/
def Sees (s : Scopes) (visible : List String) : Prop := ∀ name, s.isDeclared name = true ↔ name ∈ visible

/-- The scopes `t` are the scopes `s` with `names` declared in the innermost one. -/
def Grows (names : List String) (s t : Scopes) : Prop :=
  ∃ scope outer new, s.toList = scope :: outer ∧ t.toList = { scope with names := new ++ scope.names } :: outer ∧
    ∀ name, name ∈ new.map Prod.fst ↔ name ∈ names

theorem Grows.of_toList_eq (h : t.toList = s.toList) : Grows [] s t := by
  obtain ⟨scope, outer, hs⟩ := s.exists_toList
  exact ⟨scope, outer, [], hs, h.trans hs, fun _ => Iff.rfl⟩

/-- A declaration makes the innermost scope grow by one name. -/
theorem grows_declare (s : Scopes) (name : String) (place : Span) : Grows [name] s (s.declare name place) := by
  obtain ⟨scope, outer, hs⟩ := s.exists_toList
  exact ⟨scope, outer, [(name, place)], hs, toList_declare hs name place, fun _ => Iff.rfl⟩

/-- What grows twice grows by both lists of names. -/
theorem Grows.trans {names' : List String} {u : Scopes} (h : Grows names s t) (h' : Grows names' t u) :
    Grows (names ++ names') s u := by
  obtain ⟨scope, outer, new, hs, ht, hnew⟩ := h
  obtain ⟨scope', outer', new', ht', hu, hnew'⟩ := h'
  rw [ht] at ht'
  cases ht'
  refine ⟨scope, outer, new' ++ new, hs, by rw [hu, List.append_assoc], fun name => ?_⟩
  rw [List.map_append, List.mem_append, List.mem_append, hnew, hnew', or_comm]

/-- A scope that was opened is left as it was entered. -/
theorem Grows.exit {kind : ScopeKind} (h : Grows names (s.enter kind) t) : Grows [] s t.exit := by
  obtain ⟨scope, outer, new, hs, ht, -⟩ := h
  cases hs
  exact .of_toList_eq (toList_exit ht)

theorem Grows.kind (h : Grows names s t) : t.current.kind = s.current.kind := by
  obtain ⟨scope, outer, new, hs, ht, -⟩ := h
  rw [current_of_toList hs, current_of_toList ht]

/-- What can be seen grows by the names that were declared. -/
theorem Grows.sees {visible : List String} (h : Grows names s t) (hs : s.Sees visible) : t.Sees (names ++ visible) := by
  obtain ⟨scope, outer, new, hscope, ht, hnew⟩ := h
  intro name
  rw [List.mem_append, ← hs name, ← hnew name, isDeclared_iff, isDeclared_iff, hscope, ht]
  simp only [List.mem_cons, exists_eq_or_imp, List.map_append, List.mem_append, or_assoc]

end Scopes

/-! ## Steps of a check -/

/-- What a check reports of a type depends on the type of the items. -/
theorem Checker.itemType_eq (name : String) : itemType name = String.ofList (stripLists name.toList) := by
  have h (cs : List Char) : (dropLists cs).reverse = stripLists cs.reverse := by
    induction cs using dropLists.induct with
    | case1 cs ih =>
      have hcs : (']' :: '[' :: cs).reverse = cs.reverse ++ ['[', ']'] := by simp
      rw [dropLists, ih, hcs, stripLists.eq_def (_ ++ _), if_pos (List.suffix_append _ _)]
      simp
    | case2 cs hcs =>
      rw [dropLists.eq_2 cs hcs, stripLists, if_neg]
      rintro ⟨init, hinit⟩
      exact hcs init.reverse (by rw [← cs.reverse_reverse, ← hinit]; simp)
  rw [itemType, h, List.reverse_reverse]

namespace Checker

/-- Between the states `c` and `d` lie the uses `us`, and `names` were declared. -/
structure Ran (options : CheckOptions) (c : Checker) (names : List String) (us : List Use) (d : Checker) : Prop where
  scopes : c.scopes.Grows names d.scopes
  types : ∀ name, name ∈ d.types ↔ name ∈ reachedClasses us ++ c.types
  errors : options.maxErrors = none → d.errors.map .plain = c.errors.map .plain ++ findings options c.types us

variable {options : CheckOptions} {c d e : Checker} {names' visible : List String} {us us' : List Use}

namespace Ran

/-- Nothing was looked at. -/
theorem refl (options : CheckOptions) (c : Checker) : Ran options c [] [] c :=
  ⟨.of_toList_eq rfl, fun _ => Iff.rfl, fun _ => by simp [findings]⟩

/-- One part after another. -/
theorem trans (h : Ran options c names us d) (h' : Ran options d names' us' e) :
    Ran options c (names ++ names') (us ++ us') e where
  scopes := h.scopes.trans h'.scopes
  types name := by
    rw [h'.types, List.mem_append, h.types, reachedClasses_append]
    simp only [List.mem_append, or_assoc, or_left_comm]
  errors hmax := by
    rw [h'.errors hmax, h.errors hmax, findings_append, List.append_assoc, findings_congr options h.types]

/-- After something that declares nothing, what was declared before is still all. -/
theorem trans_nil (h : Ran options c names us d) (h' : Ran options d [] us' e) : Ran options c names (us ++ us') e := by
  have ht := h.trans h'
  rw [List.append_nil] at ht
  exact ht

theorem sees (h : Ran options c names us d) (hc : c.scopes.Sees visible) : d.scopes.Sees (names ++ visible) :=
  h.scopes.sees hc

/-- Whether the innermost scope is the outermost does not change between two states. -/
theorem isTop {top : Bool} (h : Ran options c names us d) (hc : c.scopes.current.kind = .global ↔ top = true) :
    d.scopes.current.kind = .global ↔ top = true := by
  rw [h.scopes.kind, hc]

theorem not_isTop {kind : ScopeKind} (hk : kind ≠ .global) (h : Ran options (c.enter kind) names us d) :
    d.scopes.current.kind = .global ↔ false = true := by
  have henter : (c.enter kind).scopes.current.kind = kind := rfl
  rw [h.scopes.kind, henter]
  simp [hk]

/-- What happens in a scope of its own declares nothing outside. -/
theorem inScope {kind : ScopeKind} (h : Ran options (c.enter kind) names us d) : Ran options c [] us d.exit :=
  ⟨h.scopes.exit, h.types, h.errors⟩

end Ran

/-- A declaration is no use. -/
theorem declare_ran (options : CheckOptions) (id : Ident) (c : Checker) :
    Ran options c [id.name] [] (c.declare id) where
  scopes := c.scopes.grows_declare id.name id.span
  types _ := Iff.rfl
  errors _ := by simp [declare, findings]

theorem Ran.declare (h : Ran options c names us d) (id : Ident) :
    Ran options c (names ++ [id.name]) us (d.declare id) := by
  have ht := h.trans (d.declare_ran options id)
  rw [List.append_nil] at ht
  exact ht

/-- A function or a class declares its name ahead. -/
theorem hoistOne_ran (options : CheckOptions) (s : Stmt) (c : Checker) :
    Ran options c (hoisted [s]) [] (c.hoistOne s) := by
  cases s with
  | function callable =>
    obtain ⟨name, params, result, body, span⟩ := callable
    cases name with
    | none => exact .refl options c
    | some id => exact c.declare_ran options id
  | classDecl name base interfaces members span => exact c.declare_ran options name
  | _ => exact .refl options c

/-- All functions and classes of a body are declared ahead, in their order. -/
theorem hoist_ran (options : CheckOptions) (body : List Stmt) (c : Checker) :
    Ran options c (hoisted body) [] (c.hoist body) := by
  induction body generalizing c with
  | nil => exact .refl options c
  | cons s body ih =>
    have hs : hoisted (s :: body) = hoisted [s] ++ hoisted body := by
      rw [← List.singleton_append, hoisted, hoisted, hoisted, List.filterMap_append]
    rw [hs]
    exact (c.hoistOne_ran options s).trans (ih (c.hoistOne s))

/-- A callable sees its own name, whether it is declared inside or was declared outside. -/
theorem declareSelf_ran (options : CheckOptions) (name : Option Ident) (hc : c.scopes.Sees visible) :
    ∃ names, Ran options c names [] (c.declareSelf name) ∧
      (c.declareSelf name).scopes.Sees ((name.map Ident.name).toList ++ visible) := by
  cases name with
  | none => exact ⟨[], .refl options c, hc⟩
  | some id =>
    rw [declareSelf]
    by_cases h : c.scopes.isDeclared id.name = true
    · refine ⟨[], by rw [if_pos h]; exact .refl options c, fun name => ?_⟩
      rw [if_pos h, hc name]
      have hid := (hc id.name).mp h
      constructor
      · exact List.mem_cons_of_mem id.name
      · intro hname
        rcases List.mem_cons.mp hname with rfl | hname
        · exact hid
        · exact hname
    · rw [if_neg h]
      have hr := c.declare_ran options id
      exact ⟨[id.name], hr, hr.sees hc⟩

/-- Without a bound on errors every error is reported. -/
theorem report_errors (hmax : options.maxErrors = none) (error : SemanticError) (c : Checker) :
    (c.report options error).errors = c.errors ++ [error] := by
  simp [report, hmax]

/-- A report changes nothing but the errors. -/
theorem report_scopes_types (options : CheckOptions) (error : SemanticError) (c : Checker) :
    (c.report options error).scopes = c.scopes ∧ (c.report options error).types = c.types := by
  rw [report]
  split <;> exact ⟨rfl, rfl⟩

/-- A use that is at fault is reported. -/
theorem Ran.report {u : Use} (hu : reachedClasses [u] = []) (error : SemanticError)
    (hf : u.fault? options c.types = some error.plain) : Ran options c [] [u] (c.report options error) where
  scopes := .of_toList_eq (by rw [(report_scopes_types options error c).1])
  types name := by rw [(report_scopes_types options error c).2, hu, List.nil_append]
  errors hmax := by simp [report_errors hmax, findings, hf]

/-- A use without fault changes nothing. -/
theorem Ran.faultless {u : Use} (hu : reachedClasses [u] = []) (hf : u.fault? options c.types = none) :
    Ran options c [] [u] c where
  scopes := .of_toList_eq rfl
  types name := by rw [hu]; rfl
  errors _ := by simp [findings, hf]

/-- A name is reported if it is neither known from the start nor in sight. -/
theorem resolve_ran (options : CheckOptions) (hc : c.scopes.Sees visible) (name : String) (position : Position) :
    Ran options c [] [.name name position visible] (c.resolve options name position) := by
  have hseen : (options.names.contains name || c.scopes.isDeclared name) = true ↔
      name ∈ options.names ∨ name ∈ visible := by
    rw [Bool.or_eq_true, hc name, List.contains_iff_mem]
  have hcount : Ran options c [] [] { c with references := c.references + 1 } :=
    ⟨.of_toList_eq rfl, fun _ => Iff.rfl, (Ran.refl options c).errors⟩
  unfold resolve
  by_cases h : name ∈ options.names ∨ name ∈ visible
  · have hf : (Use.name name position visible).fault? options c.types = none := if_pos h
    rw [if_pos (hseen.mpr h)]
    exact hcount.trans (.faultless rfl hf)
  · have hf : (Use.name name position visible).fault? options c.types = some (.undefinedName name position none) :=
      if_neg h
    rw [if_neg (mt hseen.mp h)]
    exact hcount.trans (.report rfl _ hf)

/-- The type of an annotation, without its brackets, is reported unless it is known. -/
theorem checkType_ran (options : CheckOptions) (type : Option Ident) (c : Checker) :
    Ran options c [] (annotationUses type) (c.checkType options type) := by
  cases type with
  | none => exact .refl options c
  | some t =>
    have hknown : c.types.contains (itemType t.name) = true ↔ String.ofList (stripLists t.name.toList) ∈ c.types := by
      rw [itemType_eq, List.contains_iff_mem]
    have hcount : Ran options c [] [] { c with typeUses := c.typeUses + 1 } :=
      ⟨.of_toList_eq rfl, fun _ => Iff.rfl, (Ran.refl options c).errors⟩
    unfold checkType
    dsimp only
    by_cases h : String.ofList (stripLists t.name.toList) ∈ c.types
    · have hf : (Use.type t).fault? options c.types = none := if_pos h
      rw [if_pos (hknown.mpr h)]
      exact hcount.trans (.faultless rfl hf)
    · have hf : (Use.type t).fault? options c.types = some (.unknownType t.name t.span.start) := if_neg h
      rw [if_neg (mt hknown.mp h)]
      exact hcount.trans (.report rfl _ hf)

/-- A class becomes a type when it is reached. -/
theorem addType_ran (options : CheckOptions) (name : String) (c : Checker) :
    Ran options c [] [.reached name] (c.addType name) where
  scopes := .of_toList_eq rfl
  types _ := Iff.rfl
  errors _ := by simp [addType, findings, Use.fault?]

/-- A class is a type from where it is reached, and is declared there unless it stands at the top. -/
theorem declareClass_ran (options : CheckOptions) {top : Bool} (htop : c.scopes.current.kind = .global ↔ top = true)
    (id : Ident) : Ran options c (if top then [] else [id.name]) [.reached id.name] (c.declareClass id) := by
  have hr := c.addType_ran options id.name
  have hkind : (c.addType id.name).scopes.current.kind = .global ↔ top = true := htop
  rw [declareClass]
  cases top with
  | true =>
    rw [if_pos (hkind.mpr rfl)]
    exact hr
  | false =>
    rw [if_neg (fun h => Bool.false_ne_true (hkind.mp h))]
    exact hr.trans ((c.addType id.name).declare_ran options id)

end Checker

/-! ## Checking trees -/

section Trees

open Checker

variable {options : CheckOptions}

mutual

/-- Checking an expression does what its uses say. By induction on the tree; the scopes are as they were, since
whatever opens a scope leaves it. -/
theorem Expr.check_ran {visible : List String} : (e : Expr) → {c : Checker} → c.scopes.Sees visible →
    Ran options c [] (e.uses visible) (e.check options c)
  | .ident name span, _, hc => resolve_ran options hc name span.start
  | .literal .., c, _ | .this .., c, _ | .super .., c, _ => .refl options c
  | .array items _, _, hc => checkExprs_ran items hc
  | .object properties _, _, hc => checkProperties_ran properties hc
  | .function callable, _, hc => callable.check_ran hc
  | .unary _ e _, _, hc => e.check_ran hc
  | .update _ _ e _, _, hc => e.check_ran hc
  | .binary _ l r _, _, hc =>
    have hl := l.check_ran hc
    hl.trans (r.check_ran (hl.sees hc))
  | .assign _ t v _, _, hc =>
    have ht := t.check_ran hc
    ht.trans (v.check_ran (ht.sees hc))
  | .call e args _ _, _, hc =>
    have he := e.check_ran hc
    he.trans (checkExprs_ran args (he.sees hc))
  | .new e args _, _, hc =>
    have he := e.check_ran hc
    he.trans (checkExprs_ran args (he.sees hc))
  | .member o _ _ _, _, hc => o.check_ran hc
  | .index o k _ _, _, hc =>
    have ho := o.check_ran hc
    ho.trans (k.check_ran (ho.sees hc))

/-- Expressions in a row. -/
theorem checkExprs_ran {visible : List String} : (es : List Expr) → {c : Checker} → c.scopes.Sees visible →
    Ran options c [] (exprUses visible es) (checkExprs options es c)
  | [], c, _ => .refl options c
  | e :: es, _, hc =>
    have he := e.check_ran hc
    he.trans (checkExprs_ran es (he.sees hc))

theorem checkExpr?_ran {visible : List String} : (e : Option Expr) → {c : Checker} → c.scopes.Sees visible →
    Ran options c [] (valueUses visible e) (checkExpr? options e c)
  | none, c, _ => .refl options c
  | some e, _, hc => e.check_ran hc

theorem checkProperties_ran {visible : List String} : (ps : List Property) → {c : Checker} → c.scopes.Sees visible →
    Ran options c [] (propertyUses visible ps) (checkProperties options ps c)
  | [], c, _ => .refl options c
  | ⟨_, e, _⟩ :: ps, _, hc =>
    have he := e.check_ran hc
    he.trans (checkProperties_ran ps (he.sees hc))

/-- Variables: each can be seen in its own value. -/
theorem checkVariables_ran {visible : List String} : (bs : List Binding) → {c : Checker} → c.scopes.Sees visible →
    Ran options c (boundNames bs) (variableUses visible bs) (checkVariables options bs c)
  | [], c, _ => .refl options c
  | ⟨id, type, value, _⟩ :: bs, c, hc =>
    have hid := c.declare_ran options id
    have htype := hid.trans_nil (checkType_ran options type (c.declare id))
    have hvalue := htype.trans_nil (checkExpr?_ran value (htype.sees hc))
    hvalue.trans (checkVariables_ran bs (hvalue.sees hc))

/-- Parameters: each can be seen after its default. -/
theorem checkParams_ran {visible : List String} : (bs : List Binding) → {c : Checker} → c.scopes.Sees visible →
    Ran options c (boundNames bs) (paramUses visible bs) (checkParams options bs c)
  | [], c, _ => .refl options c
  | ⟨id, type, value, _⟩ :: bs, c, hc =>
    have htype := checkType_ran options type c
    have hvalue := htype.trans (checkExpr?_ran value (htype.sees hc))
    have hid := hvalue.declare id
    hid.trans (checkParams_ran bs (hid.sees hc))

/-- A callable opens a scope in which its own name, its parameters and its body are. -/
theorem Callable.check_ran {visible : List String} : (callable : Callable) → {c : Checker} → c.scopes.Sees visible →
    Ran options c [] (callable.uses visible) (callable.check options c)
  | ⟨name, params, result, body, _⟩, c, hc => by
    obtain ⟨names, hself, hsees⟩ := declareSelf_ran (c := c.enter .function) options name hc
    have hparams := checkParams_ran params hsees
    have hresult := hparams.trans_nil (checkType_ran options result _)
    have hinside := hself.trans hresult
    obtain ⟨_, hbody⟩ := checkBody?_ran body (hinside.not_isTop (by decide)) (hresult.sees hsees)
    exact (hinside.trans hbody).inScope

/-- The body of a callable, whose functions and classes are declared ahead. -/
theorem checkBody?_ran {visible : List String} : (body : Option Block) → {c : Checker} →
    (c.scopes.current.kind = .global ↔ false = true) → c.scopes.Sees visible →
    ∃ names, Ran options c names (bodyUses visible body) (checkBody? options body c)
  | none, c, _, _ => ⟨[], .refl options c⟩
  | some ⟨body, _⟩, c, htop, hc => by
    have hnames := c.hoist_ran options body
    obtain ⟨_, hbody⟩ := checkStmts_ran body (hnames.isTop htop) (hnames.sees hc)
    exact ⟨_, hnames.trans hbody⟩

theorem checkInit?_ran {visible : List String} : (init : Option ForInit) → {c : Checker} → c.scopes.Sees visible →
    Ran options c ((init.map ForInit.declares).getD []) (initUses visible init) (checkInit? options init c)
  | none, c, _ => .refl options c
  | some (.declaration ⟨_, bindings, _⟩), _, hc => checkVariables_ran bindings hc
  | some (.expression e), _, hc => e.check_ran hc

/-- Checking a statement does what its uses say, and what it declares is in sight afterwards. By induction on the
tree. -/
theorem Stmt.check_ran {top : Bool} {visible : List String} : (s : Stmt) → {c : Checker} →
    (c.scopes.current.kind = .global ↔ top = true) → c.scopes.Sees visible →
    Ran options c (s.declares top) (s.uses top visible) (s.check options c)
  | .declaration ⟨_, bindings, _⟩, _, _, hc => checkVariables_ran bindings hc
  | .function callable, _, _, hc => callable.check_ran hc
  | .classDecl name base _ members _, c, htop, hc => by
    have hname := declareClass_ran options htop name
    have hsees : (c.declareClass name).scopes.Sees (if top then visible else name.name :: visible) := by
      cases top <;> exact hname.sees hc
    have hbase := checkExpr?_ran base hsees
    exact hname.trans_nil (hbase.trans (checkMembers_ran members (hbase.sees hsees)))
  | .block ⟨body, _⟩, c, _, hc => by
    have hnames := (c.enter .block).hoist_ran options body
    obtain ⟨_, hbody⟩ := checkStmts_ran body (hnames.not_isTop (by decide)) (hnames.sees hc)
    exact (hnames.trans hbody).inScope
  | .ifElse test consequent alternate _, _, htop, hc =>
    have htest := test.check_ran hc
    have hthen := htest.trans (consequent.check_ran (htest.isTop htop) (htest.sees hc))
    hthen.trans (checkStmt?_ran alternate (hthen.isTop htop) (hthen.sees hc))
  | .forLoop init test update body _, c, _, hc =>
    have hinit := checkInit?_ran init (c := c.enter .loop) hc
    have htest := hinit.trans_nil (checkExpr?_ran test (hinit.sees hc))
    have hupdate := htest.trans_nil (checkExpr?_ran update (htest.sees hc))
    (hupdate.trans (body.check_ran (hupdate.not_isTop (by decide)) (hupdate.sees hc))).inScope
  | .forEach _ id type iterable body _, c, _, hc => by
    have hiterable := iterable.check_ran hc
    have htype := checkType_ran options type ((iterable.check options c).enter .loop)
    have hid := htype.declare id
    have hbody := hid.trans (body.check_ran (hid.not_isTop (by decide)) (hid.sees (hiterable.sees hc)))
    have hloop := hiterable.trans hbody.inScope
    rw [← List.append_assoc] at hloop
    exact hloop
  | .whileLoop test body _, _, htop, hc =>
    have htest := test.check_ran hc
    htest.trans (body.check_ran (htest.isTop htop) (htest.sees hc))
  | .ret value _, _, _, hc => checkExpr?_ran value hc
  | .expression e _, _, _, hc => e.check_ran hc

/-- Statements in a row: each sees what those before it declare. -/
theorem checkStmts_ran {top : Bool} {visible : List String} : (ss : List Stmt) → {c : Checker} →
    (c.scopes.current.kind = .global ↔ top = true) → c.scopes.Sees visible →
    ∃ names, Ran options c names (stmtUses top visible ss) (checkStmts options ss c)
  | [], c, _, _ => ⟨[], .refl options c⟩
  | s :: ss, _, htop, hc => by
    have hs := s.check_ran htop hc
    obtain ⟨names, hss⟩ := checkStmts_ran ss (hs.isTop htop) (hs.sees hc)
    exact ⟨_, hs.trans hss⟩

theorem checkStmt?_ran {top : Bool} {visible : List String} : (s : Option Stmt) → {c : Checker} →
    (c.scopes.current.kind = .global ↔ top = true) → c.scopes.Sees visible →
    Ran options c (alternateDeclares top s) (alternateUses top visible s) (checkStmt? options s c)
  | none, c, _, _ => .refl options c
  | some s, _, htop, hc => s.check_ran htop hc

/-- Members of a class. -/
theorem checkMembers_ran {visible : List String} : (ms : List Member) → {c : Checker} → c.scopes.Sees visible →
    Ran options c [] (memberUses visible ms) (checkMembers options ms c)
  | [], c, _ => .refl options c
  | .method _ _ callable _ _ _ :: ms, _, hc =>
    have hm := callable.check_ran hc
    hm.trans (checkMembers_ran ms (hm.sees hc))
  | .field _ type value _ _ _ :: ms, c, hc =>
    have htype := checkType_ran options type c
    have hvalue := htype.trans (checkExpr?_ran value (htype.sees hc))
    hvalue.trans (checkMembers_ran ms (hvalue.sees hc))

end

end Trees

/-! ## Checking programs -/

section Programs

open Checker

/-- Collecting classes makes them types. -/
theorem collectClasses_scopes_types (options : CheckOptions) (ids : List Ident) (seen : List String) (c : Checker) :
    (collectClasses options ids seen c).scopes = c.scopes ∧
      ∀ name, name ∈ (collectClasses options ids seen c).types ↔ name ∈ c.types ++ ids.map Ident.name := by
  induction ids generalizing seen c with
  | nil => simp [collectClasses]
  | cons id ids ih =>
    obtain ⟨hscopes, htypes⟩ := report_scopes_types options (.duplicateClass id.name id.span.start) c
    rw [collectClasses]
    split
    · obtain ⟨hscopes', htypes'⟩ := ih (id.name :: seen) ((c.report options _).addType id.name)
      refine ⟨hscopes'.trans hscopes, fun name => ?_⟩
      rw [htypes', addType, htypes]
      simp only [List.cons_append, List.map_cons, List.mem_cons, List.mem_append, or_left_comm]
    · obtain ⟨hscopes', htypes'⟩ := ih (id.name :: seen) (c.addType id.name)
      refine ⟨hscopes', fun name => ?_⟩
      rw [htypes', addType]
      simp only [List.cons_append, List.map_cons, List.mem_cons, List.mem_append, or_left_comm]

/-- Collecting classes reports those whose name was seen. The classes `before` are those collected already. -/
theorem collectClasses_errors {options : CheckOptions} (hmax : options.maxErrors = none) (ids before : List Ident)
    (seen : List String) (hseen : ∀ name, name ∈ seen ↔ ∃ earlier ∈ before, earlier.name = name) (c : Checker) :
    (collectClasses options ids seen c).errors =
      c.errors ++ (ids.zipIdx before.length).filterMap (duplicate? (before ++ ids)) := by
  induction ids generalizing before seen c with
  | nil => simp [collectClasses]
  | cons id ids ih =>
    have hseen' : ∀ name, name ∈ id.name :: seen ↔ ∃ earlier ∈ before ++ [id], earlier.name = name := by
      intro name
      simp only [List.mem_cons, hseen, List.mem_append, List.not_mem_nil, or_false, or_and_right, exists_or,
        exists_eq_left]
      rw [or_comm, eq_comm]
    have hrest := ih (before ++ [id]) (id.name :: seen) hseen'
    rw [List.append_assoc, List.singleton_append, List.length_append, List.length_singleton] at hrest
    have hid : duplicate? (before ++ id :: ids) (id, before.length) =
        if seen.contains id.name then some (.duplicateClass id.name id.span.start) else none := by
      rw [duplicate?, List.take_left]
      simp only [← hseen, List.contains_iff_mem]
    rw [collectClasses, hrest, List.zipIdx_cons, List.filterMap_cons, hid]
    by_cases h : seen.contains id.name = true
    · rw [if_pos h, if_pos h]
      simp [addType, report_errors hmax]
    · rw [if_neg h, if_neg h]
      rfl

/-- After its classes were collected, a check comes across the uses of the program. -/
theorem Program.check_ran (options : CheckOptions) (p : Program) :
    let c := collectClasses options (topClasses p.body) [] (.start options)
    ∃ names, Ran options c names p.uses (checkStmts options p.body (c.hoist p.body)) := by
  intro c
  have hscopes := (collectClasses_scopes_types options (topClasses p.body) [] (.start options)).1
  have hstart : c.scopes.Sees [] := by
    intro name
    rw [hscopes]
    simp [Checker.start, Scopes.start, Scopes.isDeclared, Scopes.lookup?, Scopes.toList, Scopes.outermost]
  have htop : c.scopes.current.kind = .global ↔ true = true := by
    rw [hscopes]
    exact ⟨fun _ => rfl, fun _ => rfl⟩
  have hnames := c.hoist_ran options p.body
  have hsees := hnames.sees hstart
  rw [List.append_nil] at hsees
  obtain ⟨_, hbody⟩ := checkStmts_ran p.body (hnames.isTop htop) hsees
  exact ⟨_, hnames.trans hbody⟩

/-- The errors of a check without a bound on them, suggestions aside: those of the classes collected first, and then
what is wrong with the uses in the program. -/
theorem Program.check_plain {options : CheckOptions} (hmax : options.maxErrors = none) (p : Program) :
    (p.check options).errors.map .plain = (duplicates (topClasses p.body)).map .plain ++
      findings options (options.types ++ (topClasses p.body).map Ident.name) p.uses := by
  let c := collectClasses options (topClasses p.body) [] (.start options)
  have htypes := (collectClasses_scopes_types options (topClasses p.body) [] (.start options)).2
  have hclasses : c.errors = duplicates (topClasses p.body) :=
    collectClasses_errors hmax (topClasses p.body) [] [] (by simp) (.start options)
  obtain ⟨_, hran⟩ := p.check_ran options
  calc (p.check options).errors.map .plain
      = c.errors.map .plain ++ findings options c.types p.uses := hran.errors hmax
    _ = _ := by rw [hclasses, findings_congr options htypes]; rfl

/-- Whatever is asked of the errors of a check without a bound on them, suggestions aside, is asked of the repeated
classes and then of what is wrong with the uses in the program. -/
theorem Program.check_filterMap {options : CheckOptions} (hmax : options.maxErrors = none) {β : Type}
    {judge : SemanticError → Option β} (hplain : ∀ e, judge e.plain = judge e) (p : Program) :
    (p.check options).errors.filterMap judge = (duplicates (topClasses p.body)).filterMap judge ++
      (findings options (options.types ++ (topClasses p.body).map Ident.name) p.uses).filterMap judge := by
  have hjudge (es : List SemanticError) : (es.map .plain).filterMap judge = es.filterMap judge := by
    rw [List.filterMap_map]
    exact congrArg (es.filterMap ·) (funext hplain)
  rw [← hjudge (p.check options).errors, p.check_plain hmax, List.filterMap_append, hjudge]

end Programs

end Vernacular
