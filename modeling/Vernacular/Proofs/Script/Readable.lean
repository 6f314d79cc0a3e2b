import Vernacular.Proofs.Grammar.Classes
import Vernacular.Proofs.Script.Spelling

/-!
# Trees are read back from their marks

By induction on the tree, the marks of an expression or a statement are read as its normal form, if the leaves can be
spelled and the forms that read differently are absent (`Expr.plain`, `Stmt.plain`).

An expression is read at every level that does not ask for more than its precedence (`Expr.Readable`); where more is
asked for, generated code has parentheses.

- `Expr.readable`, `Stmt.readable`: the induction;
- `Program.readable`: the statements of a program.
-/

namespace Vernacular

open Grammar Vernacular.Parser

variable {u : Expr}

/-! ## Operands -/

/-- The marks are read as `t` wherever generated code puts `e` without parentheses. -/
structure Expr.Readable (e : Expr) (ms : List Mark) (t : Expr) : Prop where
  operand : IsAt (min e.precedence unaryPrecedence) ms t
  chain : e.precedence ∈ chainLevels → IsChain e.precedence ms t
  call : callPrecedence ≤ e.precedence → IsCall ms t
  under : e.parensUnderNew = false → IsUnder ms t

theorem BinaryOp.two_le_precedence (op : BinaryOp) : 2 ≤ op.precedence := by
  cases op <;> decide

/-- Nothing binds more loosely than an assignment. -/
theorem Expr.two_le_precedence (e : Expr) : 2 ≤ e.precedence := by
  unfold precedence
  split
  · exact Nat.le_refl 2
  · rename_i op _ _ _
    exact op.two_le_precedence
  all_goals decide

namespace Expr.Readable

variable {e : Expr} {ms : List Mark} {t : Expr}

/-- What is readable may stand wherever an expression may. -/
theorem isExpr (h : e.Readable ms t) : IsExpr ms t := by
  have hlow := e.two_le_precedence
  refine (h.operand.descend (Nat.le_refl 2) ?_ (Nat.min_le_right _ _)).isExpr
  exact Nat.le_min.mpr ⟨hlow, by decide⟩

/-- An operand of a level, in parentheses unless its precedence allows to leave them out. -/
theorem isAt (h : e.Readable ms t) {b : Bool} {L : Nat} (hb : b = false → L ≤ e.precedence) (hlow : 2 ≤ L)
    (hhigh : L ≤ 14) : IsAt L (inParens b ms) t := by
  cases b with
  | true => exact h.isExpr.isAtom.isPrimary.isCall.isAt.descend hlow hhigh (Nat.le_refl 14)
  | false => exact h.operand.descend hlow (Nat.le_min.mpr ⟨hb rfl, hhigh⟩) (Nat.min_le_right _ _)

/-- The first operand of a level that groups to the left. -/
theorem isChain (h : e.Readable ms t) {b : Bool} {L : Nat} (hb : b = false → L ≤ e.precedence) (hL : L ∈ chainLevels) :
    IsChain L (inParens b ms) t := by
  have hbounds : 2 ≤ L ∧ L ≤ 12 := by
    simp only [chainLevels, List.mem_cons, List.not_mem_nil, or_false] at hL
    omega
  by_cases hlt : b = false ∧ L = e.precedence
  · obtain ⟨rfl, rfl⟩ := hlt
    exact h.chain hL
  · refine (h.isAt (b := b) (L := L + 1) (fun hb' => ?_) (by omega) (by omega)).isChain hL
    have := hb hb'
    have hne : L ≠ e.precedence := fun he => hlt ⟨hb', he⟩
    omega

/-- What is called. -/
theorem isCall (h : e.Readable ms t) {b : Bool} (hb : b = false → callPrecedence ≤ e.precedence) :
    IsCall (inParens b ms) t := by
  cases b with
  | true => exact h.isExpr.isAtom.isPrimary.isCall
  | false => exact h.call (hb rfl)

/-- What is constructed. -/
theorem isUnder (h : e.Readable ms t) {b : Bool} (hb : b = false → e.parensUnderNew = false) :
    IsUnder (inParens b ms) t := by
  cases b with
  | true => exact h.isExpr.isAtom.isPrimary.isUnder
  | false => exact h.under (hb rfl)

/-- An expression that binds as tightly as calls do. -/
theorem of_isCall (hcall : callPrecedence ≤ e.precedence) (h : IsCall ms t)
    (hunder : e.parensUnderNew = false → IsUnder ms t) : e.Readable ms t where
  operand := by
    rw [Nat.min_eq_right (Nat.le_trans (by decide) hcall)]
    exact h.isAt
  chain hL := by
    simp only [chainLevels, callPrecedence, List.mem_cons, List.not_mem_nil, or_false] at hL hcall
    omega
  call _ := h
  under := hunder

/-- What is complete in itself is readable in every place. -/
theorem of_isPrimary (hcall : callPrecedence ≤ e.precedence) (h : IsPrimary ms t) : e.Readable ms t :=
  of_isCall hcall h.isCall fun _ => h.isUnder

/-- An expression that binds more loosely than calls do, but as tightly as operators in front of their operand. -/
theorem of_isAt (hlow : unaryPrecedence ≤ e.precedence) (hhigh : e.precedence < callPrecedence)
    (h : IsAt unaryPrecedence ms t) (hunder : e.parensUnderNew = true) : e.Readable ms t where
  operand := by rwa [Nat.min_eq_right hlow]
  chain hL := by
    simp only [chainLevels, unaryPrecedence, List.mem_cons, List.not_mem_nil, or_false] at hL hlow
    omega
  call hcall := absurd hcall (Nat.not_le.mpr hhigh)
  under hfalse := by rw [hunder] at hfalse; cases hfalse

end Expr.Readable

/-! ## Names -/

/-- The first word of a path. -/
def firstWord (text : String) : String := String.ofList (text.toList.takeWhile (· != '.'))

/-- A path is a word, or two with a point between. -/
theorem path_cases (text : String) :
    pathMarks text = [.word (firstWord text)] ∧ Expr.ofPath text = .ident (firstWord text) default ∨
    ∃ name, pathMarks text = .word (firstWord text) :: .symbol .dot :: [.name name] ∧
      Expr.ofPath text = .member (.ident (firstWord text) default) (.plain name) false default := by
  unfold pathMarks Expr.ofPath
  cases hdrop : text.toList.dropWhile (· != '.') with
  | nil =>
    have hjoin := List.takeWhile_append_dropWhile (p := (· != '.')) (l := text.toList)
    rw [hdrop, List.append_nil] at hjoin
    have hword : firstWord text = text := by rw [firstWord, hjoin, String.ofList_toList]
    exact .inl ⟨by rw [hword], by rw [hword]⟩
  | cons c name => exact .inr ⟨_, rfl, rfl⟩

/-- Of a name that is exchanged, the first word is of a kind that the name is of. -/
theorem ofWord_firstWord (ks : List Kind) (hwords : ks.all Kind.isWord = true)
    (htable : (identifierTable.all fun e => ks.contains (.ofWord (firstWord e.2))) = true) {s : String}
    (h : ∃ k ∈ ks, IsLexeme k s) : Kind.ofWord (firstWord (identifierName s)) ∈ ks := by
  obtain ⟨k, hk, hs⟩ := h
  obtain ⟨hword, rfl⟩ := hs.isWordText (List.all_eq_true.mp hwords k hk)
  have hself : firstWord s = s := by
    obtain ⟨htake, -⟩ := takeWhile_append_stop (r := []) (fun c hc => ne_point_of_isWordText hword hc) (by simp)
    rw [List.append_nil] at htake
    rw [firstWord, htake, String.ofList_toList]
  refine List.contains_iff_mem.mp ?_
  refine lookup_getD_of_all (P := fun s => ks.contains (.ofWord (firstWord s))) htable ?_
  rw [hself]
  exact List.contains_iff_mem.mpr hk

/-- What a name is exchanged for begins with a word that is a name's value. -/
theorem ofWord_identifierName {name : String} (h : Lexicon.spelled.ident name) :
    Kind.ofWord (firstWord (identifierName name)) ∈ identKinds :=
  ofWord_firstWord identKinds (by decide) (by decide +kernel) h

/-- A name is read as a name, or as a path if it was exchanged for one. -/
theorem readable_ident {name : String} (h : Lexicon.spelled.ident name) (s : Span) :
    (Expr.ident name s).Readable (pathMarks (identifierName name)) (.ofPath (identifierName name)) := by
  have hword := (isAtom_ident (ofWord_identifierName h)).isPrimary
  rcases path_cases (identifierName name) with ⟨hmarks, hpath⟩ | ⟨p, hmarks, hpath⟩
  · rw [hmarks, hpath]
    exact .of_isPrimary (show 17 ≤ 18 by decide) hword
  · rw [hmarks, hpath]
    have hproperty := isProperty_member id (.plain p)
    exact .of_isCall (show 17 ≤ 18 by decide) (hword.isCall.link (hproperty.isLink (.inl rfl)))
      fun _ => hword.isUnder.property hproperty

/-- The base of a class needs no parentheses in front of its properties. -/
theorem Expr.Qualified.parensBeforeProperty {V : Lexicon} {e : Expr} (h : e.Qualified V) :
    e.parensBeforeProperty = false := by
  cases e with
  | ident => rfl
  | member => rfl
  | _ => exact h.elim

/-- The path to a base class. -/
theorem isQualified_of_qualified : ∀ {e : Expr}, e.Qualified .spelled → IsQualified (e.marks .value) (e.norm .value)
  | .ident n s, h => by
    rw [Expr.marks, Expr.norm]
    have hkind := ofWord_firstWord classKinds (by decide) (by decide +kernel) h
    rcases path_cases (identifierName n) with ⟨hmarks, hpath⟩ | ⟨p, hmarks, hpath⟩
    · rw [hmarks, hpath]
      exact isQualified_word hkind
    · rw [hmarks, hpath]
      exact (isQualified_word hkind).member p
  | .member o (.plain n) false s, h => by
    rw [Expr.marks, Expr.norm]
    rw [h.1.parensBeforeProperty]
    exact (isQualified_of_qualified h.1).member _

/-! ## One step of the induction on expressions -/

section Steps

variable {e : Expr} {ms : List Mark} {t : Expr}

/-- What can be assigned to still can. -/
theorem Expr.isAssignable_norm {role : Role} (h : e.isAssignable = true) : (e.norm role).isAssignable = true := by
  cases e with
  | ident name =>
    rw [Expr.norm]
    rcases path_cases (identifierName name) with ⟨-, hpath⟩ | ⟨p, -, hpath⟩ <;> rw [hpath] <;> rfl
  | member => rw [Expr.norm]; rfl
  | index => rw [Expr.norm]; rfl
  | _ => cases h

/-- What can be assigned to binds as tightly as calls do. -/
theorem Expr.precedence_of_isAssignable (h : e.isAssignable = true) : callPrecedence ≤ e.precedence := by
  cases e with
  | ident => exact show 17 ≤ 18 by decide
  | member => exact Nat.le_refl 17
  | index => exact Nat.le_refl 17
  | _ => cases h

/-- An operator in front of its operand. -/
theorem Expr.Readable.unary (h : e.Readable ms t) (op : UnaryOp) (s : Span) :
    (Expr.unary op e s).Readable (op.mark :: inParens (e.precedence < unaryPrecedence) ms) (.unary op t default) := by
  have hoperand : IsAt 14 (inParens (e.precedence < unaryPrecedence) ms) t :=
    h.isAt (fun hb => Nat.le_of_not_lt (of_decide_eq_false hb)) (by decide) (Nat.le_refl 14)
  exact .of_isAt (Nat.le_refl 14) (show 14 < 17 by decide) (hoperand.unaryOp op) rfl

/-- An operator that steps its operand, in front or behind. -/
theorem Expr.Readable.update (h : e.Readable ms t) (he : e.isAssignable = true) (ht : t.isAssignable = true)
    (op : UpdateOp) (before : Bool) (s : Span) :
    (Expr.update op before e s).Readable (if before then .symbol op.symbol :: ms else ms ++ tighten [.symbol op.symbol])
      (.update op before t default) := by
  have hcall := h.call (Expr.precedence_of_isAssignable he)
  cases before with
  | true => exact .of_isAt (show 14 ≤ 15 by decide) (show 15 < 17 by decide) (hcall.isAt.updateBefore ht op) rfl
  | false => exact .of_isAt (show 14 ≤ 16 by decide) (show 16 < 17 by decide) (hcall.updateAfter ht op) rfl

/-- An operator that groups to the left: only the right operand may not be of the same precedence. -/
theorem Expr.Readable.chained {op : BinaryOp} (hop : op ≠ .exponent) {r : Expr} {rs : List Mark} (h : e.Readable ms t)
    (hr : r.Readable rs u) (s : Span) :
    (Expr.binary op e r s).Readable (inParens (e.parensOnLeft op) ms ++ op.mark :: inParens (r.parensOnRight op) rs)
      (.binary op t u default) := by
  have hlevel := (opAt_mark hop).1
  have hbounds : 2 ≤ op.precedence ∧ op.precedence ≤ 12 := by
    simp only [chainLevels, List.mem_cons, List.not_mem_nil, or_false] at hlevel
    omega
  have hleft (hb : e.parensOnLeft op = false) : op.precedence ≤ e.precedence := by
    simp only [Expr.parensOnLeft, if_neg hop, Bool.or_eq_false_iff, decide_eq_false_iff_not] at hb
    exact Nat.le_of_not_lt hb.1
  have hright (hb : r.parensOnRight op = false) : op.precedence + 1 ≤ r.precedence := by
    simp only [Expr.parensOnRight, if_neg hop, Bool.or_eq_false_iff, decide_eq_false_iff_not] at hb
    exact Nat.lt_of_not_le hb.1
  have hchain := (h.isChain hleft hlevel).operator hop (hr.isAt hright (by omega) (by omega))
  have hmin : min op.precedence unaryPrecedence = op.precedence := Nat.min_eq_left (show op.precedence ≤ 14 by omega)
  exact {
    operand := by
      show IsAt (min op.precedence unaryPrecedence) _ _
      rw [hmin]
      exact hchain.isAt
    chain := fun _ => hchain
    call := fun hcall => absurd hcall (show ¬17 ≤ op.precedence by omega)
    under := fun hunder => absurd (of_decide_eq_false hunder) (fun h => h (show op.precedence < 17 by omega)) }

/-- A power groups to the right, and its base is no operator in front of its operand. -/
theorem Expr.Readable.raised {r : Expr} {rs : List Mark} (h : e.Readable ms t) (hr : r.Readable rs u) (s : Span) :
    (Expr.binary .exponent e r s).Readable
      (inParens (e.parensOnLeft .exponent) ms ++ BinaryOp.exponent.mark :: inParens (r.parensOnRight .exponent) rs)
      (.binary .exponent t u default) := by
  have hleft (hb : e.parensOnLeft .exponent = false) : 14 ≤ e.precedence := by
    simp only [Expr.parensOnLeft, if_true, Bool.or_eq_false_iff, decide_eq_false_iff_not] at hb
    exact Nat.le_of_lt (Nat.lt_of_not_le hb.1)
  have hright (hb : r.parensOnRight .exponent = false) : 13 ≤ r.precedence := by
    simp only [Expr.parensOnRight, if_true, Bool.or_eq_false_iff, decide_eq_false_iff_not] at hb
    exact Nat.le_of_not_lt hb.1
  have hpower := (h.isAt hleft (by decide) (Nat.le_refl 14)).power (hr.isAt hright (by decide) (by decide))
  exact {
    operand := hpower
    chain := fun hL => absurd hL (show 13 ∉ chainLevels by decide)
    call := fun hcall => absurd hcall (show ¬17 ≤ 13 by decide)
    under := fun hunder => absurd hunder (show true ≠ false by decide) }

/-- An operator between two operands, each in parentheses if it has to be. -/
theorem Expr.Readable.binary (op : BinaryOp) {r : Expr} {rs : List Mark} (h : e.Readable ms t)
    (hr : r.Readable rs u) (s : Span) :
    (Expr.binary op e r s).Readable (inParens (e.parensOnLeft op) ms ++ op.mark :: inParens (r.parensOnRight op) rs)
      (.binary op t u default) := by
  by_cases hop : op = .exponent
  · subst hop
    exact h.raised hr s
  · exact h.chained hop hr s

/-- An assignment, whose target needs no parentheses. -/
theorem Expr.Readable.assign (h : e.Readable ms t) (he : e.isAssignable = true) (ht : t.isAssignable = true)
    (op : AssignOp)
    {v : Expr} {vs : List Mark} (hv : v.Readable vs u) (s : Span) :
    (Expr.assign op e v s).Readable (ms ++ .symbol op.symbol :: vs) (.assign op t u default) := by
  have htarget := (h.call (Expr.precedence_of_isAssignable he)).isAt
  exact {
    operand := (htarget.descend (by decide) (by decide) (Nat.le_refl 14)).assign ht op hv.isExpr
    chain := fun hL => absurd hL (show 2 ∉ chainLevels by decide)
    call := fun hcall => absurd hcall (show ¬17 ≤ 2 by decide)
    under := fun hunder => absurd hunder (show true ≠ false by decide) }

/-- A call, with what is called in parentheses if it has to be. -/
theorem Expr.Readable.called (h : e.Readable ms t) {as : List Expr} {mss : List (List Mark)} {ts : List Expr}
    (hargs : AreExprs mss ts) (optional : Bool) (s : Span) :
    (Expr.call e as optional s).Readable
      (inParens (e.precedence < callPrecedence) ms
        ++ (if optional then [Mark.symbol .optionalChain] else []) ++ inParens true (commaMarks mss))
      (.call t ts optional default) := by
  have hcallee : IsCall (inParens (e.precedence < callPrecedence) ms) t :=
    h.isCall fun hb => Nat.le_of_not_lt (of_decide_eq_false hb)
  rw [List.append_assoc]
  exact .of_isCall (Nat.le_refl 17) (hcallee.link (isLink_call hargs optional)) nofun

/-- A construction. What is constructed is in parentheses if there is a call in its path. -/
theorem Expr.Readable.new (h : e.Readable ms t) {as : List Expr} {mss : List (List Mark)} {ts : List Expr}
    (hargs : AreExprs mss ts) (s : Span) :
    (Expr.new e as s).Readable (.word "new" :: inParens e.parensUnderNew ms ++ inParens true (commaMarks mss))
      (.new t ts default) :=
  .of_isPrimary (Nat.le_refl 17) ((h.isUnder id).new hargs)

/-- Before a property a number, or what binds more loosely than calls do, is in parentheses. -/
theorem Expr.Readable.beforeProperty (h : e.Readable ms t) : IsCall (inParens e.parensBeforeProperty ms) t := by
  refine h.isCall fun hb => ?_
  unfold Expr.parensBeforeProperty at hb
  split at hb
  · cases hb
  · exact Nat.le_of_not_lt (of_decide_eq_false hb)

/-- A property. -/
theorem Expr.Readable.member (h : e.Readable ms t) (name : PropertyName) (f : String → String)
    (optional : Bool) (s : Span) : (Expr.member e name optional s).Readable
      (inParens e.parensBeforeProperty ms ++ .symbol (if optional then .optionalChain else .dot) :: name.usedMarks f)
      (.member t (name.renamed f) optional default) := by
  refine .of_isCall (Nat.le_refl 17) (h.beforeProperty.link (isLink_member f name optional)) fun hunder => ?_
  simp only [Expr.parensUnderNew, Bool.or_eq_false_iff] at hunder
  obtain ⟨rfl, hobject⟩ := hunder
  exact (h.isUnder fun _ => hobject).property (isProperty_member f name)

/-- An item in brackets. -/
theorem Expr.Readable.index (h : e.Readable ms t) {k : Expr} {ks : List Mark} (hk : IsExpr ks u)
    (optional : Bool) (s : Span) : (Expr.index e k optional s).Readable
      (inParens e.parensBeforeProperty ms ++ (if optional then [Mark.symbol .optionalChain] else [])
        ++ Mark.symbol .leftBracket :: ks ++ [Mark.symbol .rightBracket])
      (.index t u optional default) := by
  have hlink := h.beforeProperty.link (isLink_index hk optional)
  simp only [← List.append_assoc] at hlink
  refine .of_isCall (Nat.le_refl 17) hlink fun hunder => ?_
  simp only [Expr.parensUnderNew, Bool.or_eq_false_iff] at hunder
  obtain ⟨rfl, hobject⟩ := hunder
  have hproperty := (h.isUnder (b := e.parensBeforeProperty) fun _ => hobject).property (isProperty_index hk)
  rw [if_neg Bool.false_ne_true, List.append_nil, List.append_assoc]
  exact hproperty

end Steps

/-! ## Statements and lists of them -/

/-- The marks are those of some parts, one after another. -/
def Joined {α : Type} (R : List Mark → α → Prop) (ms : List Mark) (as : List α) : Prop :=
  ∃ mss, ms = mss.flatten ∧ List.Forall₂ R mss as

theorem Joined.nil {α : Type} {R : List Mark → α → Prop} : Joined R [] [] := ⟨[], rfl, .nil⟩

/-- Texts in a row, each read as an item. -/
theorem Joined.cons {α : Type} {R : List Mark → α → Prop} {ms ns : List Mark} {a : α} {as : List α} (h : R ms a)
    (hs : Joined R ns as) : Joined R (ms ++ ns) (a :: as) := by
  obtain ⟨mss, rfl, hs⟩ := hs
  exact ⟨ms :: mss, rfl, .cons h hs⟩

/-- The marks are read as these statements, one after another. -/
abbrev ReadStmts : List Mark → List Stmt → Prop := Joined IsStmt

/-- The marks are read as these members, one after another. -/
abbrev ReadMembers : List Mark → List Member → Prop := Joined IsMember

/-- The marks are read as the statement: as it stands, or in the braces that it gets. -/
def Place.IsRead (place : Place) (ms : List Mark) (s : Stmt) : Prop :=
  match place with
  | .lines => IsStmt ms s
  | .inside => ∃ ss, s.braced = .block ⟨ss, default⟩ ∧ ReadStmts ms ss

/-- A statement that is put in braces where it has to be is read in every place. -/
theorem IsStmt.isRead {ms : List Mark} {s : Stmt} (h : IsStmt ms s) (hs : s.braced = .block ⟨[s], default⟩)
    (place : Place) : place.IsRead ms s := by
  cases place with
  | lines => exact h
  | inside => exact ⟨[s], hs, by simpa using Joined.cons h .nil⟩

/-- A normal form is a condition if the statement is one. -/
theorem Stmt.isIf_norm (s : Stmt) : s.norm.isIf = s.isIf := by
  cases s with
  | block b =>
    obtain ⟨body, span⟩ := b
    rw [Stmt.norm]
    rfl
  | _ =>
    rw [Stmt.norm]
    rfl

/-- The name of a member is not taken for a modifier or the word for an accessor. -/
theorem PropertyName.SoundFor.opensMember {name : PropertyName} (h : name.SoundFor .spelled .ordinary) :
    name.OpensMember := by
  cases name with
  | plain s =>
    obtain ⟨-, k, ⟨hk, hmodifier, hconstructor⟩, hs⟩ := h
    obtain rfl := (hs.isWordText hk).2
    exact ⟨hmodifier, hconstructor⟩
  | hashed s => trivial

/-- A method of any kind. -/
theorem isMember_of_soundFor {name : PropertyName} {kind : MethodKind} (h : name.SoundFor .spelled kind)
    {pss mss : List (List Mark)} {ps : List Binding} {ss : List Stmt} (hp : AreBindings pss ps) (hs : AreStmts mss ss) :
    IsMember (kind.marks ++ name.declaredMarks ++ callableMarks pss mss.flatten)
      (.method name kind ⟨none, ps, none, some ⟨ss, default⟩, default⟩ default [] default) := by
  cases kind with
  | constructor =>
    obtain rfl : name = .plain "constructor" := h
    exact isMember_constructor hp hs
  | getter => exact isMember_accessor (.inl rfl) name hp hs
  | setter => exact isMember_accessor (.inr rfl) name hp hs
  | ordinary => exact isMember_method h.opensMember hp hs

/-- Without the word for static members nothing stands in front of a member. -/
theorem Modifiers.marks_of_not_isStatic {m : Modifiers} (h : (!m.isStatic) = true) :
    m.marks = [] ∧ m.shown = default := by
  rw [Bool.not_eq_true'] at h
  exact ⟨by rw [Modifiers.marks, h]; rfl, by rw [Modifiers.shown, h]; rfl⟩

/-- Names that are bound are of the kind of names. -/
theorem ofWord_of_bound {s : String} (h : Lexicon.spelled.bound s) : Kind.ofWord s = .identifier :=
  (IsLexeme.isWordText h rfl).2.symm

mutual

/-- The marks of an expression are read as its normal form. By induction on the tree: each node is read from its
parts by the lemma about its production, and parentheses stand exactly where that asks for them. -/
theorem Expr.readable (role : Role) :
    ∀ e : Expr, e.Sound .spelled → e.plain = true → e.Readable (e.marks role) (e.norm role)
  | .literal value s, _, _ => by
    rw [Expr.marks, Expr.norm]
    exact .of_isPrimary (show 17 ≤ 18 by decide) (isAtom_literal value).isPrimary
  | .ident name s, h, _ => by
    rw [Expr.marks, Expr.norm]
    exact readable_ident h s
  | .this s, _, _ => by
    rw [Expr.marks, Expr.norm]
    exact .of_isPrimary (show 17 ≤ 18 by decide) isAtom_this.isPrimary
  | .super s, _, _ => by
    rw [Expr.marks, Expr.norm]
    exact .of_isPrimary (show 17 ≤ 18 by decide) isAtom_super.isPrimary
  | .array items s, h, hp => by
    rw [Expr.marks, Expr.norm]
    exact .of_isPrimary (show 17 ≤ 18 by decide) (isAtom_array (areExprs items h hp)).isPrimary
  | .object properties s, h, hp => by
    rw [Expr.marks, Expr.norm]
    exact .of_isPrimary (show 17 ≤ 18 by decide) (isAtom_object (areEntries properties h hp)).isPrimary
  | .function ⟨name, params, result, body, s⟩, h, hp => by
    rw [Expr.marks, Expr.norm, Callable.norm]
    obtain ⟨hparams, hbody⟩ := Bool.and_eq_true_iff.mp hp
    obtain ⟨ss, hss, mss, hmarks, hstmts⟩ := readBody body h.2.2.2 hbody h.1
    rw [hss, hmarks]
    have hfunction := isAtom_function (areBindings params h.2.2.1 hparams) hstmts fun id hid =>
      ofWord_of_bound (h.2.1 id hid)
    exact .of_isPrimary (show 17 ≤ 18 by decide) hfunction.isPrimary
  | .unary op operand s, h, hp => by
    rw [Expr.marks, Expr.norm]
    exact (operand.readable .value h hp).unary op s
  | .update op before target s, h, hp => by
    rw [Expr.marks, Expr.norm]
    exact (target.readable .value h.2 hp).update h.1 (Expr.isAssignable_norm h.1) op before s
  | .binary op left right s, h, hp => by
    rw [Expr.marks, Expr.norm]
    obtain ⟨hl, hr⟩ := Bool.and_eq_true_iff.mp hp
    exact (left.readable .value h.1 hl).binary op (right.readable .value h.2 hr) s
  | .assign op target value s, h, hp => by
    rw [Expr.marks, Expr.norm]
    obtain ⟨ht, hv⟩ := Bool.and_eq_true_iff.mp hp
    exact (target.readable .value h.2.1 ht).assign h.1 (Expr.isAssignable_norm h.1) op
      (value.readable .value h.2.2 hv) s
  | .call callee args optional s, h, hp => by
    rw [Expr.marks, Expr.norm]
    obtain ⟨hc, ha⟩ := Bool.and_eq_true_iff.mp hp
    exact (callee.readable .callee h.1 hc).called (areExprs args h.2 ha) optional s
  | .new callee args s, h, hp => by
    rw [Expr.marks, Expr.norm]
    obtain ⟨hc, ha⟩ := Bool.and_eq_true_iff.mp hp
    exact (callee.readable .value h.1 hc).new (areExprs args h.2 ha) s
  | .member object name optional s, h, hp => by
    rw [Expr.marks, Expr.norm]
    exact (object.readable .value h.1 hp).member name role.rename optional s
  | .index object key optional s, h, hp => by
    rw [Expr.marks, Expr.norm]
    obtain ⟨ho, hk⟩ := Bool.and_eq_true_iff.mp hp
    exact (object.readable .value h.1 ho).index (key.readable .value h.2 hk).isExpr optional s

/-- Expressions in a row. -/
theorem areExprs : ∀ es : List Expr, ExprsSound .spelled es → exprsPlain es = true →
    AreExprs (exprsMarks es) (exprsNorm es)
  | [], _, _ => .nil
  | e :: es, h, hp => by
    obtain ⟨he, hes⟩ := Bool.and_eq_true_iff.mp hp
    exact .cons (e.readable .value h.1 he).isExpr (areExprs es h.2 hes)

theorem areEntries : ∀ ps : List Property, PropertiesSound .spelled ps → propertiesPlain ps = true →
    AreEntries (propertiesMarks ps) (propertiesNorm ps)
  | [], _, _ => .nil
  | ⟨key, value, s⟩ :: ps, h, hp => by
    obtain ⟨hv, hps⟩ := Bool.and_eq_true_iff.mp hp
    exact .cons ⟨key, _, _, rfl, (value.readable .value h.1.2 hv).isExpr, rfl⟩ (areEntries ps h.2 hps)

theorem isValue : ∀ value : Option Expr, OptExprSound .spelled value → optExprPlain value = true →
    IsValue (valueMarks value) (optExprNorm value)
  | none, _, _ => rfl
  | some e, h, hp => ⟨_, rfl, (e.readable .value h hp).isExpr⟩

/-- Bindings with their values. -/
theorem areBindings : ∀ bs : List Binding, BindingsSound .spelled bs → bindingsPlain bs = true →
    AreBindings (bindingsMarks bs) (bindingsNorm bs)
  | [], _, _ => .nil
  | ⟨id, type, value, s⟩ :: bs, h, hp => by
    obtain ⟨hv, hbs⟩ := Bool.and_eq_true_iff.mp hp
    exact .cons ⟨id.name, _, _, ofWord_of_bound h.1.1, rfl, isValue value h.1.2 hv, rfl⟩ (areBindings bs h.2 hbs)

/-- The body of a callable. -/
theorem readBody : ∀ body : Option Block, OptBlockSound .spelled body → optBlockPlain body = true → body.isSome = true →
    ∃ ss, optBlockNorm body = some ⟨ss, default⟩ ∧ ReadStmts (bodyMarks body) ss
  | some ⟨body, s⟩, h, hp, _ => ⟨stmtsNorm body, by rw [optBlockNorm], by rw [bodyMarks]; exact readStmts body h hp⟩

/-- A declaration without its semicolon. -/
theorem isDeclaration : ∀ d : Declaration, d.Sound .spelled → d.plain = true → IsDeclaration (declarationMarks d) d.norm
  | ⟨kind, ⟨id, type, value, s'⟩ :: bs, s⟩, h, hp => by
    rw [declarationMarks, Declaration.norm, bindingsMarks, bindingsNorm, commaMarks_cons]
    obtain ⟨hv, hbs⟩ := Bool.and_eq_true_iff.mp hp
    exact ⟨kind, id.name, _, _, _, _, rfl, ofWord_of_bound h.2.1.1, isValue value h.2.1.2 hv,
      areBindings bs h.2.2 hbs, rfl⟩
  | ⟨_, [], _⟩, h, _ => absurd rfl h.1

theorem isInit : ∀ init : Option ForInit, OptForInitSound .spelled init → optForInitPlain init = true →
    IsInit (initMarks init) (optForInitNorm init)
  | none, _, _ => rfl
  | some (.declaration d), h, hp => by
    rw [initMarks, optForInitNorm]
    exact isDeclaration d h hp
  | some (.expression e), h, hp => by
    rw [initMarks, optForInitNorm]
    exact (e.readable .value h hp).isExpr

theorem isClause : ∀ e : Option Expr, OptExprSound .spelled e → optExprPlain e = true →
    IsClause (clauseMarks e) (optExprNorm e)
  | none, _, _ => rfl
  | some e, h, hp => by
    rw [clauseMarks, optExprNorm]
    exact (e.readable .value h hp).isExpr

/-- The marks of a statement are read as its normal form. By induction on the tree, with `Expr.readable` for the
expressions. -/
theorem Stmt.readable (place : Place) :
    ∀ s : Stmt, s.Sound .spelled → s.plain = true → place.IsRead (s.marks place) s.norm
  | .declaration d, h, hp => by
    rw [Stmt.marks, Stmt.norm]
    exact (isStmt_declaration (isDeclaration d h hp)).isRead rfl place
  | .function ⟨some id, params, result, body, s⟩, h, hp => by
    rw [Stmt.marks, Stmt.norm, Callable.norm]
    obtain ⟨hparams, hbody⟩ := Bool.and_eq_true_iff.mp hp
    obtain ⟨ss, hss, mss, hmarks, hstmts⟩ := readBody body h.2.2.2.2 hbody h.2.1
    rw [hss, hmarks]
    have hfunction := isStmt_function (areBindings params h.2.2.2.1 hparams) hstmts (ofWord_of_bound (h.2.2.1 id rfl))
    exact hfunction.isRead rfl place
  | .classDecl name base interfaces members s, h, hp => by
    rw [Stmt.marks, Stmt.norm]
    obtain ⟨hbase, hmembers⟩ := Bool.and_eq_true_iff.mp hp
    obtain ⟨mss, hmarks, hmembers⟩ := readMembers members h.2.2.2 hmembers
    rw [hmarks]
    refine (isStmt_class (ofWord_of_bound h.1) ?_ hmembers).isRead rfl place
    cases base with
    | none => exact rfl
    | some e => exact ⟨_, rfl, isQualified_of_qualified (h.2.1 e rfl)⟩
  | .block ⟨body, s⟩, h, hp => by
    obtain ⟨mss, hmarks, hstmts⟩ := readStmts body h hp
    cases place with
    | lines =>
      rw [Stmt.marks, Stmt.norm, hmarks]
      exact isStmt_block hstmts
    | inside =>
      rw [Stmt.marks, Stmt.norm]
      exact ⟨_, rfl, mss, hmarks, hstmts⟩
  | .ifElse test consequent alternate s, h, hp => by
    rw [Stmt.marks, Stmt.norm]
    simp only [Stmt.plain, Bool.and_eq_true] at hp
    obtain ⟨ss, hss, mss, hmarks, hstmts⟩ := consequent.readable .inside h.2.1 hp.1.2
    rw [hss, hmarks]
    exact (isStmt_if (test.readable .value h.1 hp.1.1).isExpr hstmts (isElse alternate h.2.2 hp.2)).isRead rfl place
  | .forLoop init test update body s, h, hp => by
    rw [Stmt.marks, Stmt.norm]
    simp only [Stmt.plain, Bool.and_eq_true] at hp
    obtain ⟨ss, hss, mss, hmarks, hstmts⟩ := body.readable .inside h.2.2.2 hp.2
    rw [hss, hmarks]
    exact (isStmt_for (isInit init h.1 hp.1.1.1) (isClause test h.2.1 hp.1.1.2) (isClause update h.2.2.1 hp.1.2)
      hstmts).isRead rfl place
  | .whileLoop test body s, h, hp => by
    rw [Stmt.marks, Stmt.norm]
    simp only [Stmt.plain, Bool.and_eq_true] at hp
    obtain ⟨ss, hss, mss, hmarks, hstmts⟩ := body.readable .inside h.2 hp.2
    rw [hss, hmarks]
    exact (isStmt_while (test.readable .value h.1 hp.1).isExpr hstmts).isRead rfl place
  | .ret none s, _, _ => by
    rw [Stmt.marks, Stmt.norm]
    exact isStmt_ret_none.isRead rfl place
  | .ret (some value) s, h, hp => by
    rw [Stmt.marks, Stmt.norm]
    exact (isStmt_ret_some (value.readable .value h hp).isExpr).isRead rfl place
  | .expression e s, h, hp => by
    rw [Stmt.marks, Stmt.norm]
    exact (isStmt_expression (e.readable .value h hp).isExpr).isRead rfl place

/-- An alternative: a condition that goes on in the same line, or a block. -/
theorem isElse : ∀ s : Option Stmt, OptStmtSound .spelled s → optStmtPlain s = true → IsElse (elseMarks s) (elseNorm s)
  | none, _, _ => rfl
  | some s, h, hp => by
    rw [elseMarks, elseNorm, Stmt.asElse, s.isIf_norm]
    cases hs : s.isIf with
    | true => exact ⟨_, rfl, s.readable .lines h hp⟩
    | false =>
      obtain ⟨ss, hss, mss, hmarks, hstmts⟩ := s.readable .inside h hp
      simp only [Bool.false_eq_true, if_false, hss, hmarks]
      exact ⟨_, rfl, isStmt_block hstmts⟩

/-- Statements in a row. -/
theorem readStmts : ∀ ss : List Stmt, StmtsSound .spelled ss → stmtsPlain ss = true →
    ReadStmts (stmtsMarks ss) (stmtsNorm ss)
  | [], _, _ => .nil
  | s :: ss, h, hp => by
    obtain ⟨hs, hss⟩ := Bool.and_eq_true_iff.mp hp
    rw [stmtsMarks, stmtsNorm]
    exact .cons (s.readable .lines h.1 hs) (readStmts ss h.2 hss)

/-- Members of a class. -/
theorem readMembers : ∀ ms : List Member, MembersSound .spelled ms → membersPlain ms = true →
    ReadMembers (membersMarks ms) (membersNorm ms)
  | [], _, _ => .nil
  | .method name kind ⟨id, params, result, some ⟨body, s⟩, s'⟩ modifiers decorators s'' :: ms, h, hp => by
    rw [membersMarks, membersNorm]
    simp only [membersPlain, Callable.plain, optBlockPlain, Bool.and_eq_true] at hp
    obtain ⟨hmarks, hshown⟩ := Modifiers.marks_of_not_isStatic hp.1.1
    obtain ⟨mss, hbody, hstmts⟩ := readStmts body h.1.2.2.2.2 hp.1.2.2
    rw [hmarks, hshown, hbody, List.nil_append]
    exact .cons (isMember_of_soundFor h.1.1 (areBindings params h.1.2.2.2.1 hp.1.2.1) hstmts) (readMembers ms h.2 hp.2)
  | .method name kind ⟨id, params, result, none, s'⟩ modifiers decorators s'' :: ms, h, hp => by
    rw [membersMarks, membersNorm]
    simp only [membersPlain, Bool.and_eq_true] at hp
    exact readMembers ms h.2 hp.2
  | .field name type value modifiers decorators s :: ms, h, hp => by
    rw [membersMarks, membersNorm]
    simp only [membersPlain, Bool.and_eq_true] at hp
    obtain ⟨hmarks, hshown⟩ := Modifiers.marks_of_not_isStatic hp.1.1
    have hfield := isMember_field h.1.1.opensMember (isValue value h.1.2 hp.1.2)
    have hall := Joined.cons hfield (readMembers ms h.2 hp.2)
    rw [hmarks, hshown, List.nil_append]
    simpa only [List.append_assoc, List.cons_append, List.nil_append] using hall

end

/-- The tokens of a program's marks are read as its normal form. -/
theorem Program.meets_norm {p : Program} (h : p.Sound .spelled) (hp : p.plain = true) {ts : List Token}
    (hts : Fits none ts (stmtsMarks p.body ++ [Mark.eof])) : Meets program (.ofTokens ts) fun p' _ =>
      p'.bare = p.norm := by
  obtain ⟨mss, hmarks, hstmts⟩ := readStmts p.body h hp
  rw [hmarks] at hts
  exact meets_program hstmts hts

/-- The tokens of an expression's marks are all read, as its normal form. -/
theorem Expr.meets_norm {e : Expr} (h : e.Sound .spelled) (hp : e.plain = true) (role : Role) {ts : List Token}
    (hts : Fits none ts (e.marks role ++ [Mark.eof])) :
    Meets outermost.expression (.ofTokens ts) fun e' c => e'.bare = e.norm role ∧ c.Fits [Mark.eof] :=
  (e.readable role h hp).isExpr.2 maxDepth _ _ hts Nat.zero_lt_two

end Vernacular
