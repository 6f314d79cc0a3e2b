import Mathlib.Data.List.Forall2
import Vernacular.Proofs.Check.Cap
import Vernacular.Proofs.Check.Resolution
import Vernacular.Proofs.Grammar.Respelling

/-!
# Checks and the spelling of keywords

A check sees names, types and the classes that are reached, in the order of the text (`Program.uses`), and nothing of
the words that may be keywords but the names of types. Of the keywords only `nulo` can name a type.

- `Program.uses_view`: what a check comes across is seen through any `View` of the tree
- `Program.uses_respelt`: programs that differ in the spelling of keywords have uses that differ in that of types
- `Program.check_respelling`: the errors are of the same kinds, but for those about a type spelt `null`
- `null_unknown`: one spelling of that type is known and the other is not
-/

namespace Vernacular

open Grammar Vernacular.Parser

/-! ## Uses in view -/

def Use.view (v : View) : Use → Use
  | name n position visible => name n (v.position position) visible
  | type t => type (t.viewBy v v.type)
  | reached n => reached n

section Uses

variable (v : View)

theorem annotationUses_view (type : Option Ident) :
    annotationUses (type.map (Ident.viewBy v v.type)) = (annotationUses type).map (Use.view v) := by
  cases type <;> rfl

/-- A view hides no name that is declared. -/
theorem boundNames_view (bs : List Binding) : boundNames (bindingsView v bs) = boundNames bs := by
  rw [bindingsView_eq, boundNames, boundNames, List.map_map]
  refine List.map_congr_left fun b _ => ?_
  cases b
  rfl

/-- Nor any that is declared ahead. -/
theorem hoisted_view (body : List Stmt) : hoisted (stmtsView v body) = hoisted body := by
  rw [stmtsView_eq, hoisted, hoisted, List.filterMap_map]
  congr
  funext s
  cases s with
  | function callable =>
    obtain ⟨name, params, result, body, span⟩ := callable
    cases name <;> rfl
  | _ => rfl

theorem initDeclares_view (init : Option ForInit) :
    ((optForInitView v init).map ForInit.declares).getD [] = (init.map ForInit.declares).getD [] := by
  rcases init with _ | ⟨_, bindings, _⟩ | e
  · rfl
  · exact boundNames_view v bindings
  · rfl

mutual

/-- What a statement declares shows in every view. -/
theorem Stmt.declares_view (top : Bool) : (s : Stmt) → (s.view v).declares top = s.declares top
  | .declaration ⟨_, bindings, _⟩ => boundNames_view v bindings
  | .classDecl .. => rfl
  | .ifElse _ consequent alternate _ => by
    rw [Stmt.view, Stmt.declares, Stmt.declares, consequent.declares_view top, alternateDeclares_view top alternate]
  | .whileLoop _ body _ => body.declares_view top
  | .function _ | .block _ | .forLoop .. | .forEach .. | .ret .. | .expression .. => rfl

theorem alternateDeclares_view (top : Bool) : (s : Option Stmt) →
    alternateDeclares top (optStmtView v s) = alternateDeclares top s
  | none => rfl
  | some s => s.declares_view top

end

mutual

/-- What can be seen of the uses in an expression are the uses in what can be seen of it. By induction on the tree. -/
theorem Expr.uses_view (visible : List String) :
    (e : Expr) → (e.view v).uses visible = (e.uses visible).map (Use.view v)
  | .ident .. | .literal .. | .this .. | .super .. => rfl
  | .array items _ => exprUses_view visible items
  | .object properties _ => propertyUses_view visible properties
  | .function callable => callable.uses_view visible
  | .unary _ e _ => e.uses_view visible
  | .update _ _ e _ => e.uses_view visible
  | .binary _ l r _ => by rw [Expr.view, Expr.uses, Expr.uses, l.uses_view, r.uses_view, List.map_append]
  | .assign _ t v _ => by rw [Expr.view, Expr.uses, Expr.uses, t.uses_view, v.uses_view, List.map_append]
  | .call e args _ _ => by rw [Expr.view, Expr.uses, Expr.uses, e.uses_view, exprUses_view, List.map_append]
  | .new e args _ => by rw [Expr.view, Expr.uses, Expr.uses, e.uses_view, exprUses_view, List.map_append]
  | .member o _ _ _ => o.uses_view visible
  | .index o k _ _ => by rw [Expr.view, Expr.uses, Expr.uses, o.uses_view, k.uses_view, List.map_append]

theorem exprUses_view (visible : List String) : (es : List Expr) →
    exprUses visible (exprsView v es) = (exprUses visible es).map (Use.view v)
  | [] => rfl
  | e :: es => by rw [exprsView, exprUses, exprUses, e.uses_view, exprUses_view, List.map_append]

theorem valueUses_view (visible : List String) : (e : Option Expr) →
    valueUses visible (optExprView v e) = (valueUses visible e).map (Use.view v)
  | none => rfl
  | some e => e.uses_view visible

theorem propertyUses_view (visible : List String) : (ps : List Property) →
    propertyUses visible (propertiesView v ps) = (propertyUses visible ps).map (Use.view v)
  | [] => rfl
  | ⟨_, e, _⟩ :: ps => by
    rw [propertiesView, Property.view, propertyUses, propertyUses, e.uses_view, propertyUses_view, List.map_append]

/-- Variables. -/
theorem variableUses_view (visible : List String) : (bs : List Binding) →
    variableUses visible (bindingsView v bs) = (variableUses visible bs).map (Use.view v)
  | [] => rfl
  | ⟨id, type, value, _⟩ :: bs => by
    rw [bindingsView, Binding.view, variableUses, variableUses, annotationUses_view, valueUses_view, variableUses_view,
      List.map_append, List.map_append]
    rfl

theorem paramUses_view (visible : List String) : (bs : List Binding) →
    paramUses visible (bindingsView v bs) = (paramUses visible bs).map (Use.view v)
  | [] => rfl
  | ⟨id, type, value, _⟩ :: bs => by
    rw [bindingsView, Binding.view, paramUses, paramUses, annotationUses_view, valueUses_view, paramUses_view,
      List.map_append, List.map_append]
    rfl

/-- A callable. -/
theorem Callable.uses_view (visible : List String) : (callable : Callable) →
    (callable.view v).uses visible = (callable.uses visible).map (Use.view v)
  | ⟨name, params, result, body, _⟩ => by
    have hname : (name.map (Ident.view v)).map Ident.name = name.map Ident.name := by cases name <;> rfl
    rw [Callable.view, Callable.uses, Callable.uses, hname, paramUses_view, annotationUses_view, boundNames_view,
      bodyUses_view, List.map_append, List.map_append]

theorem bodyUses_view (visible : List String) : (body : Option Block) →
    bodyUses visible (optBlockView v body) = (bodyUses visible body).map (Use.view v)
  | none => rfl
  | some ⟨body, _⟩ => by rw [optBlockView, Block.view, bodyUses, bodyUses, hoisted_view, stmtUses_view]

theorem initUses_view (visible : List String) : (init : Option ForInit) →
    initUses visible (optForInitView v init) = (initUses visible init).map (Use.view v)
  | none => rfl
  | some (.declaration ⟨_, bindings, _⟩) => variableUses_view visible bindings
  | some (.expression e) => e.uses_view visible

/-- What can be seen of the uses in a statement. By induction on the tree. -/
theorem Stmt.uses_view (top : Bool) (visible : List String) : (s : Stmt) →
    (s.view v).uses top visible = (s.uses top visible).map (Use.view v)
  | .declaration ⟨_, bindings, _⟩ => variableUses_view visible bindings
  | .function callable => callable.uses_view visible
  | .classDecl name base _ members _ => by
    rw [Stmt.view, Stmt.uses, Stmt.uses, valueUses_view, memberUses_view, List.map_cons, List.map_append]
    rfl
  | .block ⟨body, _⟩ => by rw [Stmt.view, Block.view, Stmt.uses, Stmt.uses, hoisted_view, stmtUses_view]
  | .ifElse test consequent alternate _ => by
    rw [Stmt.view, Stmt.uses, Stmt.uses, test.uses_view, consequent.uses_view, consequent.declares_view,
      alternateUses_view, List.map_append, List.map_append]
  | .forLoop init test update body _ => by
    rw [Stmt.view, Stmt.uses, Stmt.uses, initDeclares_view, initUses_view, valueUses_view, valueUses_view,
      body.uses_view, List.map_append, List.map_append, List.map_append]
  | .forEach _ id type iterable body _ => by
    rw [Stmt.view, Stmt.uses, Stmt.uses, iterable.uses_view, annotationUses_view, body.uses_view, List.map_append,
      List.map_append]
    rfl
  | .whileLoop test body _ => by rw [Stmt.view, Stmt.uses, Stmt.uses, test.uses_view, body.uses_view, List.map_append]
  | .ret value _ => valueUses_view visible value
  | .expression e _ => e.uses_view visible

/-- Statements in a row. -/
theorem stmtUses_view (top : Bool) (visible : List String) : (ss : List Stmt) →
    stmtUses top visible (stmtsView v ss) = (stmtUses top visible ss).map (Use.view v)
  | [] => rfl
  | s :: ss => by
    rw [stmtsView, stmtUses, stmtUses, s.uses_view, s.declares_view, stmtUses_view, List.map_append]

theorem alternateUses_view (top : Bool) (visible : List String) : (s : Option Stmt) →
    alternateUses top visible (optStmtView v s) = (alternateUses top visible s).map (Use.view v)
  | none => rfl
  | some s => s.uses_view top visible

/-- Members of a class. -/
theorem memberUses_view (visible : List String) : (ms : List Member) →
    memberUses visible (membersView v ms) = (memberUses visible ms).map (Use.view v)
  | [] => rfl
  | .method _ _ callable _ _ _ :: ms => by
    rw [membersView, Member.view, memberUses, memberUses, callable.uses_view, memberUses_view, List.map_append]
  | .field _ type value _ _ _ :: ms => by
    rw [membersView, Member.view, memberUses, memberUses, annotationUses_view, valueUses_view, memberUses_view,
      List.map_append, List.map_append]

end

/-- What a check comes across in a program that is seen so. -/
theorem Program.uses_view (p : Program) : (p.view v).uses = p.uses.map (Use.view v) := by
  rw [Program.uses, Program.uses, Program.view, hoisted_view, stmtUses_view]

/-- The names of the classes show in every view. -/
theorem topClasses_view (body : List Stmt) :
    (topClasses (stmtsView v body)).map Ident.name = (topClasses body).map Ident.name := by
  rw [stmtsView_eq, topClasses, topClasses, List.filterMap_map, List.map_filterMap, List.map_filterMap]
  congr
  funext s
  cases s <;> rfl

end Uses

/-! ## The type that a keyword names -/

/-- The type of the items, with one word for the two spellings of the keyword that names a type. -/
def foldedType (name : String) : String :=
  if Checker.itemType name = "null" then "nulo" else Checker.itemType name

/-- What a check can see of a tree, were it not for the spelling of types: no places, no keys and no names of
properties. -/
def View.folded : View := ⟨fun _ => .start, fun _ => "", foldedType⟩

theorem View.folded_type : View.folded.type = foldedType := by
  simp only [View.folded]

/-- Brackets behind a word without brackets are those of lists. -/
theorem Checker.itemType_brackets {w : String} (hw : dropLists w.toList.reverse = w.toList.reverse) (n : Nat) :
    itemType ((List.replicate n "[]").foldl (· ++ ·) w) = w := by
  have hdrop (cs : List Char) : dropLists ((List.replicate n [']', '[']).flatten ++ cs) = dropLists cs := by
    induction n with
    | zero => rfl
    | succ n ih => rw [List.replicate_succ, List.flatten_cons, List.append_assoc]; exact ih
  have hreverse : (List.replicate n ['[', ']']).flatten.reverse = (List.replicate n [']', '[']).flatten := by
    simp [List.reverse_flatten]
  rw [itemType, toList_foldl_brackets, List.reverse_append, hreverse, hdrop, hw, List.reverse_reverse,
    String.ofList_toList]

/-- Respelt tokens look alike if of types only their spelling is hidden. -/
theorem Token.Respelt.tokenLike_folded {t t' : Token} (h : t.Respelt t') : TokenLike .folded t t' where
  view := congrArg (fun k => (⟨k, "", .start, .start⟩ : Token)) h.1
  text := h.tokenLike.text
  type htype n := by
    obtain ⟨-, htext | ⟨k, -, hk, hw, hw'⟩⟩ := h
    · rw [htext]
      rfl
    · obtain rfl : k = .nulo := by simpa [hk, typeKinds] using htype
      have hfolded : ∀ w ∈ Keyword.nulo.spellings, foldedType ((List.replicate n "[]").foldl (· ++ ·) w) = "nulo" := by
        intro w hw
        have hplain : ∀ w ∈ Keyword.nulo.spellings, Checker.dropLists w.toList.reverse =
            w.toList.reverse := by decide +kernel
        have hword : ∀ w ∈ Keyword.nulo.spellings, (if w = "null" then "nulo" else w) = "nulo" := by decide +kernel
        rw [foldedType, Checker.itemType_brackets (hplain w hw), hword w hw]
      rw [Like, View.folded_type, hfolded _ hw, hfolded _ hw']

/-- The places after equally many tokens of two respellings, of which a check is to see the trees. -/
def foldedRespellings {ts ts' : List Token} (h : Respelling ts ts') : Comparison :=
  { respellings h with
    view := .folded
    merge := fun _ _ => rfl
    peek := by
      rintro _ _ ⟨n, -, rfl, rfl⟩ -
      rw [Cursor.peek_after, Cursor.peek_after]
      exact (h.respelt n).tokenLike_folded
    stop := (respellings h).stop }

/-! ## Uses that are respelt -/

/-- The uses are the same but for their places and the spelling of a type. -/
inductive Use.Respelt : Use → Use → Prop
  | name {n : String} {position position' : Position} {visible : List String} :
      Respelt (.name n position visible) (.name n position' visible)
  | type {t t' : Ident} : foldedType t.name = foldedType t'.name → Respelt (.type t) (.type t')
  | reached {n : String} : Respelt (.reached n) (.reached n)

/-- Uses that look alike are respelt. -/
theorem Use.Respelt.of_view {u u' : Use} (h : u.view .folded = u'.view .folded) : u.Respelt u' := by
  cases u with
  | name n position visible =>
    cases u' with
    | name =>
      cases h
      exact .name
    | _ => cases h
  | type t =>
    cases u' with
    | type t' =>
      simp only [Use.view, Ident.viewBy, View.folded_type, Use.type.injEq, Ident.mk.injEq] at h
      exact .type h.1
    | _ => cases h
  | reached n =>
    cases u' with
    | reached =>
      cases h
      exact .reached
    | _ => cases h

/-- Respelt programs have the same top classes and respelt uses. -/
theorem Program.uses_respelt {ts ts' : List Token} (h : Respelling ts ts') {p p' : Program} (hp : parse ts = .ok p)
    (hp' : parse ts' = .ok p') : (topClasses p.body).map Ident.name = (topClasses p'.body).map Ident.name ∧
      List.Forall₂ Use.Respelt p.uses p'.uses := by
  have hview : p.view .folded = p'.view .folded := by
    have hstart : (foldedRespellings h).near (.ofTokens ts) (.ofTokens ts') := ⟨0, Nat.zero_le _, rfl, rfl⟩
    have hrun := (agree_program (X := foldedRespellings h)).run _ _ trivial hstart
    rcases hrun with hlost | hfit
    · exact absurd hlost (Nat.not_lt_zero _)
    unfold parse at hp hp'
    cases hread : program (.ofTokens ts) <;> cases hread' : program (.ofTokens ts') <;>
      rw [hread] at hp hfit <;> rw [hread'] at hp' hfit <;> cases hp <;> cases hp'
    exact hfit.1
  refine ⟨?_, ?_⟩
  · rw [← topClasses_view .folded, ← topClasses_view .folded p'.body]
    exact congrArg (fun p => (topClasses p.body).map Ident.name) hview
  · have huses := congrArg Program.uses hview
    rw [uses_view, uses_view, ← List.forall₂_eq_eq_eq, List.forall₂_map_left_iff, List.forall₂_map_right_iff] at huses
    exact huses.imp fun _ _ => Use.Respelt.of_view

/-! ## Findings among respelt uses -/

/-- The type that is named, as it is written. -/
def Use.typeName? : Use → Option String
  | type t => some t.name
  | _ => none

/-- The types that a program names, as they are written. -/
def Program.typeNames (p : Program) : List String := p.uses.filterMap Use.typeName?

/-- The error is about a type that is spelt `null`, or about a list of such. -/
def SemanticError.isOfNull : SemanticError → Bool
  | unknownType n _ => Checker.itemType n == "null"
  | _ => false

section Findings

variable {options : CheckOptions} {known : List String} {us us' : List Use}

/-- What is asked of the errors has the same answers if it has for the errors of each pair of uses. -/
theorem findings_filterMap_congr {judge : SemanticError → Option String}
    (h : List.Forall₂ (fun u u' => u.Respelt u' ∧ ∀ types, known ⊆ types →
      (u.fault? options types).toList.filterMap judge = (u'.fault? options types).toList.filterMap judge) us us') :
    (findings options known us).filterMap judge = (findings options known us').filterMap judge := by
  induction us generalizing known us' with
  | nil =>
    cases h
    rfl
  | cons u us ih =>
    cases h with
    | @cons _ u' _ us' hu hus =>
      have hreached : reachedClasses [u] = reachedClasses [u'] := by
        cases hu.1 <;> rfl
      have hrest : (findings options (reachedClasses [u] ++ known) us).filterMap judge =
          (findings options (reachedClasses [u] ++ known) us').filterMap judge :=
        ih (hus.imp fun _ _ hpair =>
          ⟨hpair.1, fun types htypes => hpair.2 types (List.Subset.trans (List.subset_append_right _ _) htypes)⟩)
      rw [findings, findings, List.filterMap_append, List.filterMap_append, hu.2 known (List.Subset.refl _),
        hrest, hreached]

/-- The answer for one use, by what is wrong with it. -/
theorem Use.fault?_name (n : String) (position : Position) (visible : List String)
    (judge : SemanticError → Option String) : ((name n position visible).fault? options known).toList.filterMap judge =
      if n ∈ options.names ∨ n ∈ visible then [] else (judge (.undefinedName n position none)).toList := by
  rw [fault?]
  split
  · rfl
  · cases h : judge (.undefinedName n position none) <;> simp [h]

/-- A type is reported if it is not known without its brackets. -/
theorem Use.fault?_type (t : Ident) (judge : SemanticError → Option String) :
    ((type t).fault? options known).toList.filterMap judge =
      if Checker.itemType t.name ∈ known then [] else (judge (.unknownType t.name t.span.start)).toList := by
  rw [fault?, ← Checker.itemType_eq]
  split
  · rfl
  · cases h : judge (.unknownType t.name t.span.start) <;> simp [h]

/-- Of respelt types both are known or neither is, if they are spelt alike or both spellings are known. -/
theorem itemType_mem_iff {n n' : String} (hfolded : foldedType n = foldedType n') (hnulo : "nulo" ∈ known)
    (hspelt : "null" ∈ known ∨ n = n') : Checker.itemType n ∈ known ↔ Checker.itemType n' ∈ known := by
  rcases hspelt with hnull | rfl
  · have hiff (n : String) : Checker.itemType n ∈ known ↔ foldedType n ∈ known := by
      unfold foldedType
      split
      · rename_i hn
        rw [hn]
        exact iff_of_true hnull hnulo
      · rfl
    rw [hiff, hiff, hfolded]
  · rfl

/-- Respelt uses have errors of the same kind, if they are spelt alike or both spellings are known. -/
theorem Use.Respelt.fault?_label {u u' : Use} (h : u.Respelt u') (hnulo : "nulo" ∈ known)
    (hspelt : "null" ∈ known ∨ u.typeName? = u'.typeName?) :
    (u.fault? options known).toList.filterMap (fun e => some e.label) =
      (u'.fault? options known).toList.filterMap fun e => some e.label := by
  cases h with
  | name => rw [fault?_name, fault?_name]; rfl
  | type hfolded =>
    rw [fault?_type, fault?_type]
    simp only [itemType_mem_iff hfolded hnulo (hspelt.imp id Option.some.inj)]
    rfl
  | reached => rfl

/-- Respelt uses have errors of the same kind, but for those about a type that is spelt `null`. -/
theorem Use.Respelt.fault?_ofNull {u u' : Use} (h : u.Respelt u') (hnulo : "nulo" ∈ known) :
    (u.fault? options known).toList.filterMap (fun e => if e.isOfNull then none else some e.label) =
      (u'.fault? options known).toList.filterMap fun e => if e.isOfNull then none else some e.label := by
  cases h with
  | name => rw [fault?_name, fault?_name]; rfl
  | @type t t' hfolded =>
    have hjudge (t : Ident) : (if Checker.itemType t.name ∈ known then [] else
        (if (SemanticError.unknownType t.name t.span.start).isOfNull then none else
          some (SemanticError.unknownType t.name t.span.start).label).toList) =
        if foldedType t.name ∈ known then [] else ["InvalidType"] := by
      unfold foldedType SemanticError.isOfNull
      by_cases hn : Checker.itemType t.name = "null"
      · simp [hn, hnulo]
      · simp [hn, SemanticError.label]
    rw [fault?_type, fault?_type, hjudge, hjudge, hfolded]
  | reached => rfl

end Findings

/-- The classes that have the name of a class before them are known by their names. -/
theorem duplicates_filterMap_congr {judge : SemanticError → Option String}
    (hjudge : ∀ n position position', judge (.duplicateClass n position) = judge (.duplicateClass n position'))
    {classes classes' : List Ident} (h : classes.map Ident.name = classes'.map Ident.name) :
    (duplicates classes).filterMap judge = (duplicates classes').filterMap judge := by
  have hnames (classes : List Ident) : (duplicates classes).filterMap judge =
      (classes.map Ident.name).zipIdx.filterMap fun x =>
        if x.1 ∈ (classes.map Ident.name).take x.2 then judge (.duplicateClass x.1 .start) else none := by
    rw [duplicates, List.filterMap_filterMap, List.zipIdx_map, List.filterMap_map]
    congr
    funext x
    obtain ⟨id, i⟩ := x
    simp only [duplicate?, Function.comp_apply, Prod.map_apply, id_eq, ← List.map_take, List.mem_map]
    split
    · exact hjudge _ _ _
    · rfl
  rw [hnames, hnames, h]

/-- Respelt uses that name the same types name the same type pair by pair. -/
theorem forall₂_typeName? {us us' : List Use} (h : List.Forall₂ Use.Respelt us us')
    (hnames : us.filterMap Use.typeName? = us'.filterMap Use.typeName?) :
    List.Forall₂ (fun u u' => u.Respelt u' ∧ u.typeName? = u'.typeName?) us us' := by
  induction h with
  | nil => exact .nil
  | cons hu hus ih =>
    cases hu with
    | name => exact .cons ⟨.name, rfl⟩ (ih hnames)
    | type hfolded =>
      obtain ⟨hname, hrest⟩ := List.cons.inj hnames
      exact .cons ⟨.type hfolded, congrArg some hname⟩ (ih hrest)
    | reached => exact .cons ⟨.reached, rfl⟩ (ih hnames)

/-! ## Programs -/

/-- What is asked of all errors, suggestions and places aside, has the same answers for programs whose top classes have
the same names, if it has for each pair of their uses. -/
theorem Program.check_filterMap_congr {options : CheckOptions} {p p' : Program}
    (hclasses : (topClasses p.body).map Ident.name = (topClasses p'.body).map Ident.name)
    {judge : SemanticError → Option String} (hplain : ∀ e, judge e.plain = judge e)
    (hplace : ∀ n position position', judge (.duplicateClass n position) = judge (.duplicateClass n position'))
    (huses : List.Forall₂ (fun u u' => u.Respelt u' ∧ ∀ types, options.types ⊆ types →
      (u.fault? options.uncapped types).toList.filterMap judge =
        (u'.fault? options.uncapped types).toList.filterMap judge) p.uses p'.uses) :
    (p.check options.uncapped).errors.filterMap judge = (p'.check options.uncapped).errors.filterMap judge := by
  rw [check_filterMap rfl hplain, check_filterMap rfl hplain, duplicates_filterMap_congr hplace hclasses, ← hclasses]
  refine congrArg _ (findings_filterMap_congr (huses.imp fun u u' hpair => ⟨hpair.1, fun types htypes => ?_⟩))
  exact hpair.2 types (List.Subset.trans (List.subset_append_left _ _) htypes)

/-- Errors of the same kinds are of the same kinds up to a bound. -/
theorem labels_cut {es es' : List SemanticError} (h : es.map SemanticError.label = es'.map SemanticError.label)
    (bound : Option Nat) : (cut bound es).map SemanticError.label = (cut bound es').map SemanticError.label := by
  cases bound with
  | none => exact h
  | some k => rw [cut, cut, List.map_take, List.map_take, h]

theorem labels_filter (es : List SemanticError) : (es.filter fun e => !e.isOfNull).map SemanticError.label =
    es.filterMap fun e => if e.isOfNull then none else some e.label := by
  induction es with
  | nil => rfl
  | cons e es ih => cases he : e.isOfNull <;> simp [he, ih]

/-- **The spelling of keywords has no part in what a check finds, but for one type.** Two programs whose tokens differ
at most in the spelling of keywords, and in places other than the line breaks that matter, have the same kinds of errors
in the same order, whatever the settings are, if they write the types alike or the host provides a type `null`; one is
then without errors if the other is. In any case the errors differ at most in those about a type that is spelt
`null`. -/
theorem Program.check_respelling {ts ts' : List Token} (h : Respelling ts ts') {p p' : Program} (hp : parse ts = .ok p)
    (hp' : parse ts' = .ok p') (options : CheckOptions) :
    ("null" ∈ options.extraTypes ∨ p.typeNames = p'.typeNames →
      (p.check options).errors.map SemanticError.label = (p'.check options).errors.map SemanticError.label ∧
      ((p.check options).errors = [] ↔ (p'.check options).errors = [])) ∧
    ((p.check options.uncapped).errors.filter fun e => !e.isOfNull).map SemanticError.label =
      ((p'.check options.uncapped).errors.filter fun e => !e.isOfNull).map SemanticError.label := by
  obtain ⟨hclasses, huses⟩ := Program.uses_respelt h hp hp'
  have hnulo {types : List String} (htypes : options.types ⊆ types) : "nulo" ∈ types :=
    htypes (by simp [CheckOptions.types, CheckOptions.standardTypes])
  refine ⟨fun hspelt => ?_, ?_⟩
  · have hpairs : List.Forall₂ (fun u u' => u.Respelt u' ∧ ∀ types, options.types ⊆ types →
        (u.fault? options.uncapped types).toList.filterMap (fun e => some e.label) =
          (u'.fault? options.uncapped types).toList.filterMap fun e => some e.label) p.uses p'.uses := by
      rcases hspelt with hnull | hnames
      · refine huses.imp fun u u' hu => ⟨hu, fun types htypes => hu.fault?_label (hnulo htypes) (.inl (htypes ?_))⟩
        simp [CheckOptions.types, hnull]
      · refine (forall₂_typeName? huses hnames).imp fun u u' hu => ⟨hu.1, fun types htypes => ?_⟩
        exact hu.1.fault?_label (hnulo htypes) (.inr hu.2)
    have hall := Program.check_filterMap_congr hclasses (fun e => by cases e <;> rfl) (fun _ _ _ => rfl) hpairs
    rw [List.filterMap_eq_map'] at hall
    have hlabels : (p.check options).errors.map SemanticError.label =
        (p'.check options).errors.map SemanticError.label := by
      rw [p.check_capped options, p'.check_capped options]
      exact labels_cut hall options.maxErrors
    refine ⟨hlabels, ?_⟩
    rw [← List.map_eq_nil_iff (f := SemanticError.label), hlabels, List.map_eq_nil_iff]
  · rw [labels_filter, labels_filter]
    refine Program.check_filterMap_congr hclasses (fun e => by cases e <;> rfl) (fun _ _ _ => rfl) ?_
    exact huses.imp fun u u' hu => ⟨hu, fun types htypes => hu.fault?_ofNull (hnulo htypes)⟩

/-- Two sources that are read, and what can be decided of their tokens and trees. -/
def bothRead (source source' : String) (test : List Token → List Token → Program → Program → Bool) : Bool :=
  ((tokenize source).toOption.bind fun ts => (tokenize source').toOption.bind fun ts' =>
    (parse ts).toOption.bind fun p => (parse ts').toOption.filter fun p' => test ts ts' p p').isSome

/-- A test that holds of what is read from two texts. -/
theorem exists_of_bothRead {source source' : String} {test : List Token → List Token → Program → Program → Bool}
    (h : bothRead source source' test = true) : ∃ ts ts' p p', tokenize source = .ok ts ∧ tokenize source' = .ok ts' ∧
      parse ts = .ok p ∧ parse ts' = .ok p' ∧ test ts ts' p p' = true := by
  obtain ⟨p', h⟩ := Option.isSome_iff_exists.mp h
  obtain ⟨ts, hts, h⟩ := Option.bind_eq_some_iff.mp h
  obtain ⟨ts', hts', h⟩ := Option.bind_eq_some_iff.mp h
  obtain ⟨p, hp, h⟩ := Option.bind_eq_some_iff.mp h
  obtain ⟨hp', h⟩ := Option.filter_eq_some_iff.mp h
  exact ⟨ts, ts', p, p', ok_of_toOption hts, ok_of_toOption hts', ok_of_toOption hp, ok_of_toOption hp', h⟩

/-- One program in two languages, with an unknown type and a name without a declaration. -/
def bilingual : String × String := ("variavel a: B[] = nulo, b: nulo = c", "let a: B[] = null, b: nulo = c")

theorem Program.check_respelling_bilingual : ∃ ts ts' p p', tokenize bilingual.1 = .ok ts ∧
    tokenize bilingual.2 = .ok ts' ∧ Respelling ts ts' ∧ parse ts = .ok p ∧ parse ts' = .ok p' ∧
    p.typeNames = p'.typeNames ∧
    (p.check {}).errors.map SemanticError.label = ["InvalidType", "UndefinedVariable"] ∧
    (p'.check {}).errors.map SemanticError.label = ["InvalidType", "UndefinedVariable"] := by
  have hread : bothRead bilingual.1 bilingual.2 (fun ts ts' p p' =>
      decide (Respelling ts ts') && p.typeNames == p'.typeNames &&
      (p.check {}).errors.map SemanticError.label == ["InvalidType", "UndefinedVariable"]) = true := by
    decide +kernel
  obtain ⟨ts, ts', p, p', hts, hts', hp, hp', htest⟩ := exists_of_bothRead hread
  simp only [Bool.and_eq_true, decide_eq_true_eq, beq_iff_eq] at htest
  obtain ⟨⟨h, hnames⟩, hlabels⟩ := htest
  have hsame := ((Program.check_respelling h hp hp' {}).1 (.inr hnames)).1
  exact ⟨ts, ts', p, p', hts, hts', h, hp, hp', hnames, hlabels, hsame.symm.trans hlabels⟩

/-- The keyword that names a type is a known type in one of its spellings only. -/
theorem null_unknown : ∃ ts ts' p p', tokenize "variavel x: nulo = nulo" = .ok ts ∧
    tokenize "variavel x: null = nulo" = .ok ts' ∧ Respelling ts ts' ∧ parse ts = .ok p ∧ parse ts' = .ok p' ∧
    (p.check {}).errors = [] ∧ (p'.check {}).errors.map SemanticError.label = ["InvalidType"] := by
  have hread : bothRead "variavel x: nulo = nulo" "variavel x: null = nulo" (fun ts ts' p p' =>
      decide (Respelling ts ts') && (p.check {}).errors == [] &&
      (p'.check {}).errors.map SemanticError.label == ["InvalidType"]) = true := by
    decide +kernel
  obtain ⟨ts, ts', p, p', hts, hts', hp, hp', htest⟩ := exists_of_bothRead hread
  simp only [Bool.and_eq_true, decide_eq_true_eq, beq_iff_eq] at htest
  obtain ⟨⟨h, herrors⟩, hlabels⟩ := htest
  exact ⟨ts, ts', p, p', hts, hts', h, hp, hp', herrors, hlabels⟩

end Vernacular
