import Vernacular.Proofs.Grammar.Ladder

/-!
# Reading statements

Marks are read as bindings, callables, classes and statements, again compared without their places. Behind a statement
may stand anything but the word for another branch.

- `IsBinding`, `IsStmt`, `IsMember`: the marks are read as this, one level further in;
- `reads_separated`: items one after another, up to a closing brace.
-/

namespace Vernacular

open Grammar Vernacular.Parser

variable {α β : Type}
variable {more ms vs : List Mark} {mss : List (List Mark)} {ss : List Stmt} {t : Expr} {v : Option Expr}
  {d : Declaration}

/-! ## Bindings -/

/-- The sign of assignment and a value, or nothing. -/
def IsValue (vs : List Mark) : Option Expr → Prop
  | none => vs = []
  | some t => ∃ ms, vs = .symbol .assign :: ms ∧ IsExpr ms t

/-- A bound name without its places. -/
def Binding.bare (b : Binding) : Binding := ⟨b.id.bare, b.type.map Ident.bare, optExprBare b.value, default⟩

theorem bindingsBare_eq_map (bs : List Binding) : bindingsBare bs = bs.map Binding.bare := by
  induction bs with
  | nil => rfl
  | cons b bs ih =>
    obtain ⟨id, type, value, span⟩ := b
    rw [bindingsBare, ih]
    rfl

/-- What ends a binding is no sign of assignment. -/
theorem Kind.Ends.ne_assign {k : Kind} (h : k.Ends) : k ≠ .symbol .assign := by
  rintro rfl
  exact absurd h.1 (by decide)

/-- The value of a binding, or nothing. -/
theorem reads_bindingRest (h : IsValue vs v) (n : Nat) (id : Ident) :
    Reads (bindingRest (level n) id none) vs Kind.Ends (·.bare = ⟨id.bare, none, v, default⟩) := by
  intro c more hc hf
  cases v with
  | none =>
    obtain rfl := h
    refine .bind (.accept_false hc hf.ne_assign (.bind (.pure ?_)))
    exact .bind (.spanFrom fun _ => .pure ⟨rfl, hc⟩)
  | some t =>
    obtain ⟨ms, rfl, ht⟩ := h
    refine .bind (.accept_true hc rfl fun c hc => .bind ((ht.2 n).meets hc hf.1 fun e c he hc => ?_))
    refine .bind (.pure (.bind (.spanFrom fun _ => .pure ⟨?_, hc⟩)))
    rw [← he]
    rfl

/-- A name and perhaps a value. -/
def IsBinding (ms : List Mark) (b : Binding) : Prop :=
  ∃ name vs v, Kind.ofWord name = .identifier ∧ ms = .word name :: vs ∧ IsValue vs v ∧
  b = ⟨⟨name, default⟩, none, v, default⟩

/-- Behind a name stands its value, or what comes next. -/
theorem IsValue.kindOf_append (h : IsValue vs v) (more : List Mark) :
    kindOf (vs ++ more) = .symbol .assign ∨ kindOf (vs ++ more) = kindOf more := by
  cases v with
  | none =>
    obtain rfl := h
    exact .inr rfl
  | some t =>
    obtain ⟨ms, rfl, -⟩ := h
    exact .inl rfl

/-- No type stands between a name and its value. -/
theorem IsValue.kindOf_ne_colon (h : IsValue vs v) (hf : (kindOf more).Ends) :
    kindOf (vs ++ more) ≠ .symbol .colon := by
  rcases h.kindOf_append more with hk | hk <;> rw [hk]
  · exact nofun
  · exact hf.2

/-- A binding is read from its marks. -/
theorem reads_binding {b : Binding} (h : IsBinding ms b) (n : Nat) (context : Context) :
    Reads (binding (level n) context) ms Kind.Ends (·.bare = b) := by
  obtain ⟨name, vs, v, hname, rfl, hv, rfl⟩ := h
  intro c more hc hf
  refine .bind (.identifier hc hname fun id c hid hc => .bind ?_)
  refine .optionalType_none hc (hv.kindOf_ne_colon hf) ?_
  exact (reads_bindingRest hv n id).meets hc hf fun b c hb hc => ⟨hb.trans (by rw [Ident.bare, hid]; rfl), hc⟩

/-- Bindings, one by one. -/
abbrev AreBindings : List (List Mark) → List Binding → Prop := List.Forall₂ IsBinding

theorem AreBindings.readAll {bs : List Binding} (h : AreBindings mss bs) (n : Nat) (context : Context) :
    ReadAll (binding (level n) context) Binding.bare mss bs := by
  refine h.imp fun ms b hb => ⟨reads_binding hb n context, ?_⟩
  obtain ⟨name, vs, v, hname, rfl, -⟩ := hb
  refine ⟨List.cons_ne_nil _ _, fun s _ => ?_⟩
  rw [show kindOf (Mark.word name :: vs) = _ from hname]
  exact nofun

/-- Parameters in parentheses. -/
theorem reads_parameters {bs : List Binding} (h : AreBindings mss bs) (n : Nat) :
    Reads (parameters (level n)) (inParens true (commaMarks mss)) (fun _ => True) (bindingsBare · = bs) := by
  intro c more hc _
  rw [inParens_append] at hc
  refine .bind (.expectSymbol hc fun _ c hc => .bind ?_)
  refine (reads_commaList (by decide) (h.readAll n _)).meets hc rfl fun bs c hbs hc => ?_
  exact .bind (.expectSymbol hc fun _ c hc => .pure ⟨(bindingsBare_eq_map bs).trans hbs, hc⟩)

/-! ## Items one after another -/

/-- Items that are read one after another, before any kind with `F`. -/
abbrev ReadItems (item : Parser α) (F : Kind → Prop) (view : α → β) : List (List Mark) → List β → Prop :=
  List.Forall₂ fun ms b =>
    Reads item ms F (view · = b) ∧ ms ≠ [] ∧ F (kindOf ms) ∧ kindOf ms ≠ .symbol .rightBrace ∧ kindOf ms ≠ .eof

section ReadItems

variable {item : Parser α} {F : Kind → Prop} {view : α → β} {bs : List β}

/-- A reader of items that stops where none begins reads all of them. -/
theorem ReadItems.steps (h : ReadItems item F view mss bs) {step : Parser (Option α)}
    (hstep : ∀ (ms : List Mark) (b : β), Reads item ms F (view · = b) → ms ≠ [] → F (kindOf ms) →
      kindOf ms ≠ .symbol .rightBrace → kindOf ms ≠ .eof → Reads step ms F fun o => ∃ a, o = some a ∧ view a = b) :
    Steps step F view mss bs :=
  h.imp fun ms b ⟨hread, hne, hends, hbrace, heof⟩ => ⟨hstep ms b hread hne hends hbrace heof, hne, hends⟩

/-- Items in a row begin with a kind that may stand at the beginning of an item or behind the last. -/
theorem ReadItems.kindOf_append (h : ReadItems item F view mss bs) (hmore : F (kindOf more)) :
    F (kindOf (mss.flatten ++ more)) := by
  cases h with
  | nil => exact hmore
  | cons hfirst =>
    obtain ⟨-, hne, hends, -⟩ := hfirst
    rwa [List.flatten_cons, List.append_assoc, Vernacular.kindOf_append hne]

/-- Items up to a closing brace. -/
theorem reads_separated (h : ReadItems item F view mss bs) (hsemicolon : ¬F (.symbol .semicolon))
    (hbrace : F (.symbol .rightBrace)) :
    Reads (separated item) mss.flatten (· = .symbol .rightBrace) fun as => as.map view = bs := by
  intro c more hc hf
  have hmore : F (kindOf more) := hf ▸ hbrace
  have hne {k : Kind} (hk : F k) : k ≠ .symbol .semicolon := fun h => hsemicolon (h ▸ hk)
  refine .bind (.skipSemicolons hc (hne (h.kindOf_append hmore)) (.many ?_))
  refine .steps ?_ hmore (h.steps fun ms b hread hms _ hbrace heof c more hc hf => ?_) hc ?_ fun as c has hc =>
    ⟨has, hc⟩
  · refine fun c hc => .bind (.check_true hc hf (.bind (.check hc ?_)))
    exact .pure ⟨rfl, hc⟩
  · refine .bind (.check_false hc (by rwa [Vernacular.kindOf_append hms]) (.bind ?_))
    refine .check_false hc (by rwa [Vernacular.kindOf_append hms]) (.bind (hread.meets hc hf fun a c ha hc => ?_))
    exact .bind (.skipSemicolons hc (hne hf) (.pure ⟨⟨a, rfl, ha⟩, hc⟩))
  · rw [hc.length, List.length_append]
    exact Nat.le_add_right _ _

end ReadItems

/-! ## Blocks and callables -/

/-- The kinds with which a statement begins. -/
def Kind.opensStmt (k : Kind) : Bool :=
  k.opensExpr || [Kind.keyword .variavel, .keyword .constante, .keyword .classe, .keyword .se, .keyword .enquanto,
    .keyword .para, .keyword .retorne].contains k

/-- What may stand behind a statement in a list. -/
def Kind.EndsStmt (k : Kind) : Prop := k ≠ .keyword .senao ∧ k ≠ .symbol .semicolon ∧ k ≠ .symbol .rightParen

/-- The marks are read as the statement by whatever level comes next. -/
def IsStmt (ms : List Mark) (s : Stmt) : Prop :=
  Opens Kind.opensStmt ms ∧ ∀ n, Reads (level n).statement ms (· ≠ .keyword .senao) (·.bare = s)

/-- A statement that the reader of one level reads is read by the next. -/
theorem isStmt_of_reads {s : Stmt} (hopens : Opens Kind.opensStmt ms)
    (h : ∀ n, Reads (statement (level n)) ms (· ≠ .keyword .senao) (·.bare = s)) : IsStmt ms s := by
  refine ⟨hopens, fun n => ?_⟩
  cases n with
  | zero => exact fun c more _ _ => .tooDeep
  | succ n => exact h n

/-- Statements, one by one. -/
abbrev AreStmts : List (List Mark) → List Stmt → Prop := List.Forall₂ IsStmt

theorem stmtsBare_eq_map (ss : List Stmt) : stmtsBare ss = ss.map Stmt.bare := by
  induction ss with
  | nil => rfl
  | cons s ss ih => rw [stmtsBare, ih, List.map_cons]

/-- Statements in a row are read one by one. -/
theorem AreStmts.readItems (h : AreStmts mss ss) (n : Nat) :
    ReadItems (level n).statement Kind.EndsStmt Stmt.bare mss ss :=
  h.imp fun _ _ ⟨hopens, hread⟩ => ⟨fun c more hc hf => hread n c more hc hf.1, hopens.ne_nil,
    ⟨hopens.kindOf_ne rfl, hopens.kindOf_ne rfl, hopens.kindOf_ne rfl⟩, hopens.kindOf_ne rfl, hopens.kindOf_ne rfl⟩

/-- Statements in braces. -/
theorem reads_blockIn (h : AreStmts mss ss) (n : Nat) (context : Context) :
    Reads (blockIn (level n) context) (inBraces mss.flatten) (fun _ => True) (·.bare = ⟨ss, default⟩) := by
  intro c more hc _
  rw [inBraces_append] at hc
  refine .bind (.position fun _ => .bind (.expectSymbol hc fun _ c hc => .bind ?_))
  refine (reads_separated (h.readItems n) (fun h => h.2.1 rfl) ⟨nofun, nofun, nofun⟩).meets hc
    rfl fun body c hbody hc => ?_
  refine .bind (.expectSymbol hc fun _ c hc => .bind (.spanFrom fun _ => .pure ⟨?_, hc⟩))
  simp only [Block.bare, stmtsBare_eq_map, hbody]

/-- Parameters and body of a callable. -/
theorem reads_callableRest {pss : List (List Mark)} {ps : List Binding} (hp : AreBindings pss ps) (h : AreStmts mss ss)
    (n : Nat) (name : Option Ident) (start : Position) :
    Reads (callableRest (level n) name start false) (callableMarks pss mss.flatten) (fun _ => True)
      (·.bare = ⟨name.map Ident.bare, ps, none, some ⟨ss, default⟩, default⟩) := by
  intro c more hc _
  rw [callableMarks, List.append_assoc] at hc
  refine .bind ((reads_parameters hp n).meets hc trivial fun params c hparams hc => .bind ?_)
  refine .optionalType_none hc nofun (.bind (.check hc ?_))
  refine .bind ((reads_blockIn h n _).meets hc trivial fun body c hbody hc => ?_)
  refine .bind (.pure (.bind (.spanFrom fun _ => .pure ⟨?_, hc⟩)))
  rw [← hparams, ← hbody]
  rfl

/-- A function without or with a name of its own. -/
theorem isAtom_function {pss : List (List Mark)} {ps : List Binding} (hp : AreBindings pss ps) (h : AreStmts mss ss)
    {name : Option Ident} (hname : ∀ id ∈ name, Kind.ofWord id.name = .identifier) :
    IsAtom (.word "function" :: (name.map fun id => Mark.word id.name).toList ++ callableMarks pss mss.flatten)
      (.function ⟨name.map Ident.bare, ps, none, some ⟨ss, default⟩, default⟩) := by
  have hkind : Kind.ofWord "function" = .keyword .funcao := Kind.ofWord_of_mem (.tail _ (.head _))
  refine ⟨.word (by rw [hkind]; rfl) (fun _ => rfl) _, by rw [List.cons_append, kindOf, Mark.word, hkind]; decide,
    fun n c more hc _ => .bind (.peek hc fun tok htok _ => ?_)⟩
  simp only [List.cons_append, List.append_assoc] at hc
  rw [Mark.word, hkind] at htok
  have hsimple : simple? tok = none := by
    unfold simple?
    rw [htok]
  rw [hsimple, htok]
  refine .bind (.position fun start => .bind (.expect hc (by simp [Mark.word, hkind]) fun _ c _ _ hc => ?_))
  cases name with
  | none =>
    refine .bind (.check_false hc (by rintro ⟨⟩) (.bind (.pure (.bind ?_))))
    refine (reads_callableRest hp h n none start).meets hc trivial fun f c hf hc => .pure ⟨?_, hc⟩
    simp only [Expr.bare, hf]
  | some id =>
    refine .bind (.check_true hc (hname id rfl) (.bind (.identifier hc (hname id rfl) fun id' c hid hc => ?_)))
    refine .bind (.pure (.bind ?_))
    refine (reads_callableRest hp h n (some id') start).meets hc trivial fun f c hf hc => .pure ⟨?_, hc⟩
    simp only [Expr.bare, hf, Option.map_some, Ident.bare, hid, Mark.word]

/-! ## Simple statements -/

/-- What a statement's first word makes of its reader. -/
theorem isStmt_of_word {w : String} {k : Keyword} {s : Stmt} (hspelt : w ∈ k.spellings)
    (hopens : Kind.opensStmt (.keyword k) = true) (hw : k = .funcao → w = "function")
    (h : ∀ n, Reads (statement (level n)) (⟨.keyword k, w, false⟩ :: ms) (· ≠ .keyword .senao) (·.bare = s)) :
    IsStmt (.word w :: ms) s := by
  have hk := Kind.ofWord_of_mem hspelt
  refine isStmt_of_reads (.word (by rwa [hk]) (fun hw' => hw ?_) ms) fun n => ?_
  · rw [hk] at hw'
    exact Kind.keyword.inj hw'
  · rw [Mark.word, hk]
    exact h n

/-- A declaration without the semicolon behind it. -/
def IsDeclaration (ms : List Mark) (d : Declaration) : Prop :=
  ∃ kind name vs v mss bs, ms = VariableKind.mark kind :: .word name :: vs ++ commaTail mss ∧
    Kind.ofWord name = .identifier ∧ IsValue vs v ∧ AreBindings mss bs ∧
    d = ⟨kind, ⟨⟨name, default⟩, none, v, default⟩ :: bs, default⟩

theorem VariableKind.kind_mark (kind : VariableKind) :
    kind.mark.kind = .keyword (match kind with | .mutable => .variavel | .constant => .constante) := by
  cases kind with
  | mutable => exact Kind.ofWord_of_mem (k := .variavel) (w := "let") (.tail _ (.tail _ (.head _)))
  | constant => exact Kind.ofWord_of_mem (k := .constante) (w := "const") (.tail _ (.head _))

/-- The word for a declaration. -/
theorem meets_variableKind {kind : VariableKind} {c : Cursor} (hc : c.Fits (kind.mark :: more))
    {Q : VariableKind → Cursor → Prop} (h : ∀ c' : Cursor, c'.Fits more → Q kind c') : Meets variableKind c Q := by
  have hkind := kind.kind_mark
  refine .bind (.expect hc ?_ fun t c' ht _ hc' => .pure ?_)
  · rw [hkind]
    cases kind <;> decide
  · have hresult : (if t.kind = .keyword .constante then VariableKind.constant else .mutable) = kind := by
      rw [ht, hkind]
      cases kind <;> rfl
    rw [hresult]
    exact h c' hc'

/-- Behind a binding there is a comma or what ends the last one. -/
theorem ends_commaTail (mss : List (List Mark)) (hf : (kindOf more).Ends) : (kindOf (commaTail mss ++ more)).Ends := by
  cases mss with
  | nil => exact hf
  | cons => exact ⟨(by decide : 0 < 2), nofun⟩

/-- The rest of a declaration, of which the first name has been read. -/
theorem reads_bindings (hv : IsValue vs v) {bs : List Binding} (h : AreBindings mss bs) (n : Nat) (context : Context)
    (id : Ident) :
    Reads (bindings (level n) context id none) (vs ++ commaTail mss) (fun k => k.Ends ∧ k ≠ .symbol .comma)
      (bindingsBare · = ⟨id.bare, none, v, default⟩ :: bs) := by
  intro c more hc hf
  rw [List.append_assoc] at hc
  refine .bind ((reads_bindingRest hv n id).meets hc (ends_commaTail mss hf.1) fun b c hb hc => .bind ?_)
  refine (reads_afterCommas (h.readAll n context)).meets hc hf fun others c hothers hc => .pure ⟨?_, hc⟩
  simp only [bindingsBare_eq_map, List.map_cons, hb, hothers]

/-- A declaration with its semicolon. -/
theorem reads_variablesStatement (h : IsDeclaration ms d) (n : Nat) :
    Reads (variablesStatement (level n)) (ms ++ [Mark.symbol .semicolon]) (fun _ => True)
      (·.bare = .declaration d) := by
  obtain ⟨kind, name, vs, v, mss, bs, rfl, hname, hv, hbs, rfl⟩ := h
  intro c more hc _
  simp only [List.cons_append, List.append_assoc, List.nil_append] at hc
  refine .bind (.bind (.position fun _ => .bind (meets_variableKind hc fun c hc => .bind ?_)))
  have hends : (kindOf (Mark.symbol .semicolon :: more)).Ends := ⟨Nat.zero_lt_two, nofun⟩
  refine .identifier hc hname fun id c hid hc => .bind (.optionalType_none hc ?_ (.bind ?_))
  · exact hv.kindOf_ne_colon (ends_commaTail mss hends)
  rw [← List.append_assoc] at hc
  refine (reads_bindings hv hbs n _ id).meets hc ⟨hends, nofun⟩ fun bs c hbs hc => .bind (.spanFrom fun _ => ?_)
  refine .pure (.bind (.accept_true hc rfl fun c hc => .pure ⟨?_, hc⟩))
  simp only [Stmt.bare, Declaration.bare, hbs, Ident.bare, hid, Mark.word]

/-- How a declaration begins. -/
theorem IsDeclaration.kindOf (h : IsDeclaration ms d) (more : List Mark) :
    kindOf (ms ++ more) = .keyword .variavel ∨ kindOf (ms ++ more) = .keyword .constante := by
  obtain ⟨kind, name, vs, v, mss, bs, rfl, -⟩ := h
  have hkind := kind.kind_mark
  cases kind with
  | mutable => exact .inl hkind
  | constant => exact .inr hkind

/-- A declaration is a statement. -/
theorem isStmt_declaration (h : IsDeclaration ms d) : IsStmt (ms ++ [Mark.symbol .semicolon]) (.declaration d) := by
  have hopens : Opens Kind.opensStmt (ms ++ [.symbol .semicolon]) := by
    obtain ⟨kind, name, vs, v, mss, bs, rfl, -⟩ := h
    refine ⟨_, _, rfl, ?_, ?_, ?_⟩
    · rw [kind.kind_mark]
      cases kind <;> rfl
    · rw [kind.kind_mark]
      exact nofun
    · rw [kind.kind_mark]
      cases kind <;> exact nofun
  refine isStmt_of_reads hopens fun n c more hc _ => .bind (.kind hc ?_)
  have hread := reads_variablesStatement h n c more hc trivial
  have hkind := h.kindOf (.symbol .semicolon :: more)
  rw [List.append_assoc, List.singleton_append]
  rcases hkind with hk | hk
  · rw [hk]
    exact hread
  · rw [hk]
    exact hread

/-- A function declaration. -/
theorem isStmt_function {pss : List (List Mark)} {ps : List Binding} (hp : AreBindings pss ps) (h : AreStmts mss ss)
    {id : Ident} (hid : Kind.ofWord id.name = .identifier) :
    IsStmt (.word "function" :: .word id.name :: callableMarks pss mss.flatten)
      (.function ⟨some id.bare, ps, none, some ⟨ss, default⟩, default⟩) := by
  refine isStmt_of_word (k := .funcao) (.tail _ (.head _)) rfl (fun _ => rfl) fun n c more hc _ => ?_
  simp only [List.cons_append] at hc
  refine .bind (.kind hc (.bind (.position fun start => .bind ?_)))
  refine .expect hc (by simp) fun _ c _ _ hc => .bind (.identifier hc hid fun id' c hid hc => .bind ?_)
  refine (reads_callableRest hp h n (some id') start).meets hc trivial fun f c hf hc => .pure ⟨?_, hc⟩
  simp only [Stmt.bare, hf, Option.map_some, Ident.bare, hid, Mark.word]

/-- Statements in braces are a statement; whatever comes behind it. -/
theorem reads_block (h : AreStmts mss ss) (n : Nat) :
    Reads (level n).statement (inBraces mss.flatten) (fun _ => True) (·.bare = .block ⟨ss, default⟩) := by
  cases n with
  | zero => exact fun c more _ _ => .tooDeep
  | succ n =>
    refine fun c more hc _ => .bind (.kind hc (.bind ?_))
    refine (reads_blockIn h n .block).meets hc trivial fun b c hb hc => .pure ⟨?_, hc⟩
    simp only [Stmt.bare, hb]

/-- A block. -/
theorem isStmt_block (h : AreStmts mss ss) : IsStmt (inBraces mss.flatten) (.block ⟨ss, default⟩) :=
  ⟨.symbol rfl _, fun n c more hc _ => reads_block h n c more hc trivial⟩

/-- A value begins on the line of the word before it, and is read as ever. -/
theorem Cursor.Fits.of_tighten {c : Cursor} (h : c.Fits (tighten ms ++ more)) : c.Fits (ms ++ more) := by
  cases ms with
  | nil => exact h
  | cons m ms =>
    obtain ⟨previous, rest⟩ := c
    cases rest with
    | nil => exact h.elim
    | cons t ts => exact ⟨⟨h.1.1, h.1.2.1, fun _ => h.1.2.2 rfl⟩, h.2⟩

/-- A return without a value. -/
theorem isStmt_ret_none : IsStmt [.word "return", .symbol .semicolon] (.ret none default) := by
  refine isStmt_of_word (k := .retorne) (.tail _ (.head _)) rfl nofun fun n c more hc _ => ?_
  refine .bind (.kind hc (.bind (.position fun _ => .bind ?_)))
  refine .expect hc (by simp) fun _ c _ _ hc => .bind (.kind hc (.bind (.onNewLine_or fun _ => ?_)))
  refine .ite_pos rfl (.bind (.pure (.bind (.accept_true hc rfl fun c hc => ?_))))
  exact .bind (.spanFrom fun _ => .pure ⟨rfl, hc⟩)

/-- A return with a value, which has to begin on the same line. -/
theorem isStmt_ret_some (h : IsExpr ms t) :
    IsStmt (Mark.word "return" :: tighten ms ++ [Mark.symbol .semicolon]) (.ret (some t) default) := by
  rw [List.cons_append]
  refine isStmt_of_word (k := .retorne) (.tail _ (.head _)) rfl nofun fun n c more hc _ => ?_
  simp only [List.cons_append, List.append_assoc, List.nil_append] at hc
  refine .bind (.kind hc (.bind (.position fun _ => .bind ?_)))
  refine .expect hc (by simp) fun _ c _ _ hc => .bind (.kind hc.of_tighten ?_)
  -- the value begins on the same line, and as an expression does
  have hends : [Kind.symbol .semicolon, .symbol .rightBrace, .eof].contains
      (kindOf (ms ++ (.symbol .semicolon :: more))) = false := by
    rw [kindOf_append h.1.ne_nil, List.contains_eq_mem, decide_eq_false_iff_not]
    simp only [List.mem_cons, List.not_mem_nil, or_false, not_or]
    exact ⟨h.1.kindOf_ne rfl, h.1.kindOf_ne rfl, h.1.kindOf_ne rfl⟩
  have hline : Meets onNewLine c fun b c' => b = false ∧ c' = c := by
    cases ms with
    | nil => exact absurd rfl h.1.ne_nil
    | cons m ms => exact .onNewLine hc rfl ⟨rfl, rfl⟩
  refine .bind (hline.mono fun b c' hb => ?_)
  rw [hb.1, hb.2]
  refine .ite_neg (by rw [Bool.or_false, hends]; exact Bool.false_ne_true) (.bind ?_)
  refine (h.2 n).meets hc.of_tighten Nat.zero_lt_two fun e c he hc => .bind (.pure (.bind ?_))
  refine .accept_true hc rfl fun c hc => .bind (.spanFrom fun _ => .pure ⟨?_, hc⟩)
  rw [← he]
  rfl

/-- Parentheses around an expression change nothing. -/
theorem IsExpr.inParens (h : IsExpr ms t) (b : Bool) : IsExpr (inParens b ms) t := by
  cases b with
  | false => exact h
  | true => exact (h.isAtom.isPrimary.isCall.isAt.descend (Nat.le_refl 2) (by decide) (Nat.le_refl 14)).isExpr

/-- A statement that begins as no other statement does is an expression. -/
theorem reads_expressionStatement (h : IsExpr ms t) (hbrace : kindOf ms ≠ .symbol .leftBrace)
    (hfunction : kindOf ms ≠ .keyword .funcao) (n : Nat) :
    Reads (statement (level n)) (ms ++ [Mark.symbol .semicolon]) (fun _ => True) (·.bare = .expression t default) := by
  intro c more hc _
  rw [List.append_assoc] at hc
  have hexpr : Meets (expressionStatement (level n)) c fun s c' => s.bare = .expression t default ∧ c'.Fits more := by
    refine .bind (.position fun _ => .bind ((h.2 n).meets hc Nat.zero_lt_two fun e c he hc => ?_))
    refine .bind (.accept_true hc rfl fun c hc => .bind (.spanFrom fun _ => .pure ⟨?_, hc⟩))
    rw [← he]
    rfl
  refine .bind (.kind hc ?_)
  have hopens := h.1.kindOf
  rw [kindOf_append h.1.ne_nil]
  split
  case h_9 hk => exact absurd hk hbrace
  case h_3 hk => exact absurd hk hfunction
  case h_10 => exact hexpr
  all_goals
    rename_i hk
    rw [hk] at hopens
    cases hopens

/-- With its parentheses, an expression begins as no other statement does. -/
theorem opensPlainly (h : Opens Kind.opensExpr ms) :
    kindOf (inParens (opensAmbiguously ms) ms) ≠ .symbol .leftBrace ∧
      kindOf (inParens (opensAmbiguously ms) ms) ≠ .keyword .funcao := by
  obtain ⟨m, rest, rfl, -, hbrace, hfunction⟩ := h
  cases hm : opensAmbiguously (m :: rest) with
  | true => exact ⟨nofun, nofun⟩
  | false =>
    simp only [opensAmbiguously, Bool.or_eq_false_iff, beq_eq_false_iff_ne] at hm
    exact ⟨fun hk => hm.1 (hbrace hk), fun hk => hm.2 (hfunction hk)⟩

/-- An expression as a statement, in parentheses if it would be taken for a block or a function. -/
theorem isStmt_expression (h : IsExpr ms t) :
    IsStmt (inParens (opensAmbiguously ms) ms ++ [Mark.symbol .semicolon]) (.expression t default) := by
  have hparens := h.inParens (opensAmbiguously ms)
  have hopens : Opens Kind.opensStmt (inParens (opensAmbiguously ms) ms) := hparens.1.mono fun k hk => by
    rw [Kind.opensStmt, hk, Bool.true_or]
  obtain ⟨hbrace, hfunction⟩ := opensPlainly h.1
  refine isStmt_of_reads (hopens.append _) fun n c more hc _ => ?_
  exact reads_expressionStatement hparens hbrace hfunction n c more hc trivial

/-! ## Branches and loops -/

/-- A condition in parentheses. -/
theorem reads_condition (h : IsExpr ms t) (n : Nat) (context : Context) :
    Reads (condition (level n) context) (inParens true ms) (fun _ => True) (·.bare = t) := by
  intro c more hc _
  rw [inParens_append] at hc
  refine .bind (.accept_true hc rfl fun c hc => .bind ?_)
  refine (h.2 n).meets hc Nat.zero_lt_two fun e c he hc => .bind (.expectSymbol hc fun _ c hc => ?_)
  exact .pure ⟨he, hc⟩

/-- A loop with a condition. -/
theorem isStmt_while (ht : IsExpr ms t) (h : AreStmts mss ss) :
    IsStmt (.word "while" :: inParens true ms ++ inBraces mss.flatten)
      (.whileLoop t (.block ⟨ss, default⟩) default) := by
  rw [List.cons_append]
  refine isStmt_of_word (k := .enquanto) (.tail _ (.head _)) rfl nofun fun n c more hc _ => ?_
  simp only [List.cons_append, List.append_assoc] at hc
  refine .bind (.kind hc (.bind (.position fun _ => .bind ?_)))
  refine .expect hc (by simp) fun _ c _ _ hc => .bind ((reads_condition ht n _).meets hc trivial fun e c he hc => ?_)
  refine .bind ((reads_block h n).meets hc trivial fun b c hb hc => .bind (.spanFrom fun _ => ?_))
  exact .pure ⟨by rw [← he, ← hb]; rfl, hc⟩

/-- The branch behind the first, if there is one. -/
def IsElse (ms : List Mark) : Option Stmt → Prop
  | none => ms = []
  | some s => ∃ es, ms = .word "else" :: es ∧ IsStmt es s

/-- A branch with or without an alternative. -/
theorem isStmt_if (ht : IsExpr ms t) (h : AreStmts mss ss) {es : List Mark} {alternate : Option Stmt}
    (he : IsElse es alternate) :
    IsStmt (.word "if" :: inParens true ms ++ inBraces mss.flatten ++ es)
      (.ifElse t (.block ⟨ss, default⟩) alternate default) := by
  rw [List.cons_append, List.cons_append]
  refine isStmt_of_word (k := .se) (.tail _ (.head _)) rfl nofun fun n c more hc hf => ?_
  simp only [List.cons_append, List.append_assoc] at hc
  refine .bind (.kind hc (.bind (.position fun _ => .bind ?_)))
  refine .expect hc (by simp) fun _ c _ _ hc => .bind ((reads_condition ht n _).meets hc trivial fun e c ht hc => ?_)
  refine .bind ((reads_block h n).meets hc trivial fun b c hb hc => ?_)
  cases alternate with
  | none =>
    obtain rfl := he
    refine .bind (.accept_false hc hf (.bind (.pure (.bind (.spanFrom fun _ => ?_)))))
    exact .pure ⟨by rw [← ht, ← hb]; rfl, hc⟩
  | some s =>
    obtain ⟨es, rfl, hs⟩ := he
    have hkind : Kind.ofWord "else" = .keyword .senao := Kind.ofWord_of_mem (.tail _ (.head _))
    refine .bind (.accept_true hc hkind fun c hc => .bind ((hs.2 n).meets hc hf fun s' c hs' hc => ?_))
    refine .bind (.pure (.bind (.spanFrom fun _ => .pure ⟨?_, hc⟩)))
    rw [← ht, ← hb, ← hs']
    rfl

/-- A part of a loop's header, if it is there. -/
def IsClause (ms : List Mark) : Option Expr → Prop
  | none => ms = []
  | some t => IsExpr ms t

/-- A clause of a loop, which may be missing. -/
theorem reads_optionalExpression {t : Option Expr} (h : IsClause ms t) {closing : Kind} (hpower : closing.power < 2)
    (hopens : closing.opensExpr = false) (n : Nat) :
    Reads (optionalExpression (level n) closing) ms (· = closing) (optExprBare · = t) := by
  intro c more hc hf
  cases t with
  | none =>
    obtain rfl := h
    exact .bind (.check_true hc hf (.pure ⟨rfl, hc⟩))
  | some t =>
    have hfirst : kindOf (ms ++ more) ≠ closing := by
      rw [kindOf_append h.1.ne_nil]
      exact h.1.kindOf_ne hopens
    refine .bind (.check_false hc hfirst (.bind ?_))
    refine (h.2 n).meets hc (by rwa [show kindOf more = closing from hf]) fun e c he hc => .pure ⟨?_, hc⟩
    rw [← he]
    rfl

/-- What a loop does first. -/
def IsInit (ms : List Mark) : Option ForInit → Prop
  | none => ms = []
  | some (.declaration d) => IsDeclaration ms d
  | some (.expression t) => IsExpr ms t

/-- What stands behind the first part of a loop's header, up to the end of the loop. -/
theorem reads_forLoopRest {ts us : List Mark} {t u : Option Expr} (ht : IsClause ts t) (hu : IsClause us u)
    (h : AreStmts mss ss) (n : Nat) (start : Position) (init : Option ForInit) :
    Reads (forLoopRest (level n) start true init)
      (.symbol .semicolon :: ts ++ .symbol .semicolon :: us ++ .symbol .rightParen :: inBraces mss.flatten)
        (fun _ => True)
      (·.bare = .forLoop (optForInitBare init) t u (.block ⟨ss, default⟩) default) := by
  intro c more hc _
  simp only [List.cons_append, List.append_assoc] at hc
  refine .bind (.expectSymbol hc fun _ c hc => .bind ?_)
  refine (reads_optionalExpression ht (by decide) rfl n).meets hc rfl fun test c htest hc => .bind ?_
  refine .expectSymbol hc fun _ c hc => .bind ?_
  refine (reads_optionalExpression hu (by decide) rfl n).meets hc rfl fun update c hupdate hc => .bind ?_
  refine .expectSymbol hc fun _ c hc => .bind ((reads_block h n).meets hc trivial fun b c hb hc => ?_)
  exact .bind (.spanFrom fun _ => .pure ⟨by simp only [Stmt.bare, htest, hupdate, hb], hc⟩)

/-- Before a clause no variables are declared. -/
theorem IsClause.kindOf_ne {t : Option Expr} (h : IsClause ms t) {k : Kind} (hopens : k.opensExpr = false)
    (hmore : kindOf more ≠ k) : kindOf (ms ++ more) ≠ k := by
  cases t with
  | none =>
    obtain rfl := h
    exact hmore
  | some t =>
    rw [kindOf_append h.1.ne_nil]
    exact h.1.kindOf_ne hopens

section For

/-! The part behind the first semicolon is read to the same loop, whatever the first part is. -/

variable {n : Nat} {rs : List Mark} (loop : Option ForInit → Stmt)

/-- A loop that declares its variables. -/
theorem reads_forStatement_declaration
    (hrest : ∀ start init, Reads (forLoopRest (level n) start true init) (.symbol .semicolon :: rs)
      (fun _ => True) (·.bare = loop (optForInitBare init)))
    {is : List Mark} (h : IsDeclaration is d) :
    Reads (forStatement (level n)) (⟨.keyword .para, "for", false⟩ :: .symbol .leftParen :: is ++
      .symbol .semicolon :: rs)
      (fun _ => True) (·.bare = loop (some (.declaration d))) := by
  have hkind := h.kindOf
  obtain ⟨kind, name, vs, v, mss, bs, rfl, hname, hv, hbs, rfl⟩ := h
  intro c more hc _
  rw [List.append_assoc, List.cons_append, List.cons_append] at hc
  refine .bind (.position fun start => .bind (.expect hc (by simp) fun _ c _ _ hc => .bind ?_))
  refine .accept_true hc rfl fun c hc => .bind (.check hc (.bind (.check hc ?_)))
  refine .ite_pos ?_ (.bind (.position fun _ => .bind ?_))
  · rcases hkind _ with hk | hk <;> rw [hk] <;> rfl
  simp only [List.cons_append] at hc
  have hends : (kindOf (Mark.symbol .semicolon :: (rs ++ more))).Ends := ⟨Nat.zero_lt_two, nofun⟩
  refine meets_variableKind hc fun c hc => .bind (.identifier hc hname fun id c hid hc => .bind ?_)
  rw [List.append_assoc] at hc
  refine .optionalType_none hc (hv.kindOf_ne_colon (ends_commaTail mss hends)) (.bind ?_)
  have hof : kindOf (vs ++ (commaTail mss ++ .symbol .semicolon :: (rs ++ more))) ≠ .keyword .de := by
    rcases hv.kindOf_append _ with hk | hk <;> rw [hk]
    · exact nofun
    · cases mss <;> exact nofun
  refine .accept_false hc hof ?_
  rw [← List.append_assoc] at hc
  refine .bind ((reads_bindings hv hbs n _ id).meets hc ⟨hends, nofun⟩ fun bs c hbs hc => ?_)
  refine .bind (.spanFrom fun _ => (hrest start _).meets hc trivial fun s c hs hc => ⟨hs.trans ?_, hc⟩)
  simp only [optForInitBare, Declaration.bare, hbs, Ident.bare, hid, Mark.word]

/-- A loop that declares nothing. -/
theorem reads_forStatement_clause
    (hrest : ∀ start init, Reads (forLoopRest (level n) start true init) (.symbol .semicolon :: rs) (fun _ => True)
      (·.bare = loop (optForInitBare init)))
    {is : List Mark} {i : Option Expr} (h : IsClause is i) :
    Reads (forStatement (level n)) (⟨.keyword .para, "for", false⟩ :: .symbol .leftParen :: is ++
      .symbol .semicolon :: rs)
      (fun _ => True) (·.bare = loop (i.map .expression)) := by
  intro c more hc _
  rw [List.append_assoc, List.cons_append, List.cons_append] at hc
  refine .bind (.position fun start => .bind (.expect hc (by simp) fun _ c _ _ hc => .bind ?_))
  refine .accept_true hc rfl fun c hc => .bind (.check_false hc (h.kindOf_ne rfl nofun) (.bind ?_))
  refine .check_false hc (h.kindOf_ne rfl nofun) (.bind ?_)
  refine (reads_optionalExpression h (by decide) rfl n).meets hc rfl fun init c hinit hc => ?_
  refine (hrest start (init.map .expression)).meets hc trivial fun s c hs hc => ⟨hs.trans ?_, hc⟩
  have hbare : optForInitBare (init.map .expression) = i.map .expression := by
    rw [← hinit]
    cases init <;> rfl
  rw [hbare]

end For

/-- A loop with three clauses. -/
theorem isStmt_for {is ts us : List Mark} {i : Option ForInit} {t u : Option Expr} (hi : IsInit is i)
    (ht : IsClause ts t) (hu : IsClause us u) (h : AreStmts mss ss) :
    IsStmt (.word "for" :: inParens true (is ++ .symbol .semicolon :: ts ++ .symbol .semicolon :: us) ++
      inBraces mss.flatten)
      (.forLoop i t u (.block ⟨ss, default⟩) default) := by
  have hmarks : inParens true (is ++ .symbol .semicolon :: ts ++ .symbol .semicolon :: us) ++ inBraces mss.flatten
      = .symbol .leftParen :: is
        ++ (.symbol .semicolon :: ts ++ .symbol .semicolon :: us ++ .symbol .rightParen :: inBraces mss.flatten) := by
    simp [inParens]
  rw [List.cons_append, hmarks]
  refine isStmt_of_word (k := .para) (.tail _ (.head _)) rfl (by decide) fun n c more hc _ => .bind (.kind hc ?_)
  have hrest := reads_forLoopRest ht hu h n
  let loop (i : Option ForInit) : Stmt := .forLoop i t u (.block ⟨ss, default⟩) default
  cases i with
  | none => exact reads_forStatement_clause loop hrest (i := none) hi c more hc trivial
  | some i =>
    cases i with
    | declaration d => exact reads_forStatement_declaration loop hrest hi c more hc trivial
    | expression e => exact reads_forStatement_clause loop hrest (i := some e) hi c more hc trivial

/-! ## Programs -/

/-- Statements up to the end of the tokens are a program. -/
theorem meets_program (h : AreStmts mss ss) {ts : List Token} (hts : Fits none ts (mss.flatten ++ [Mark.eof])) :
    Meets program (.ofTokens ts) fun p _ => p.bare = ⟨ss, default⟩ := by
  have hitems := h.readItems maxDepth
  have heof : (kindOf [Mark.eof]).EndsStmt := ⟨nofun, nofun, nofun⟩
  have hc : (Cursor.ofTokens ts).Fits (mss.flatten ++ [.eof]) := hts
  refine .bind (.position fun _ => .bind ?_)
  refine .skipSemicolons hc (hitems.kindOf_append heof).2.1 (.bind (.many ?_))
  refine .steps ?_ heof (hitems.steps fun ms s hread hne hends hbrace heof c more hc hf => ?_) hc ?_
    fun body c hbody hc => .bind (.spanFrom fun _ => .pure ?_)
  · exact fun c hc => .bind (.check_true hc rfl (.pure ⟨rfl, hc⟩))
  · have hkind := kindOf_append hne more
    rw [← hkind] at hends hbrace heof
    refine .bind (.check_false hc heof (.bind (.check_false hc hbrace (.bind ?_))))
    refine .check_false hc hends.2.2 (.bind (hread.meets hc hf fun s c hs hc => .bind ?_))
    exact .skipSemicolons hc hf.2.1 (.pure ⟨⟨s, rfl, hs⟩, hc⟩)
  · rw [hc.length, List.length_append]
    exact Nat.le_add_right _ _
  · simp only [Program.bare, stmtsBare_eq_map, hbody]

end Vernacular
