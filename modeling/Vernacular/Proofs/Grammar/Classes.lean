import Vernacular.Proofs.Grammar.Statements

/-!
# Reading classes

Marks are read as the members of a class, and as a class with its base.

- `IsQualified`: the name of a class, reached through properties;
- `IsMember`: a method or a field without any word in front of it but `get` and `set`;
- `isStmt_class`: a class.
-/

namespace Vernacular

open Grammar Vernacular.Parser

variable {mss pss : List (List Mark)} {ms : List Mark} {ps : List Binding} {ss : List Stmt}

/-! ## Names of classes -/

namespace Grammar

/-- A property through which a class is reached, if one comes. -/
def qualifier : Parser (Option (Link × Position)) := do
  if ← accept (.symbol .dot) then ended (.member (.plain (← propertyWord .classDeclaration).text) false)
  else return none

end Grammar

/-- Behind the marks, the reader of a class's name goes on with properties of `t`. -/
def IsQualified (ms : List Mark) (t : Expr) : Prop :=
  ∀ (c : Cursor) more Q, c.Fits (ms ++ more) →
    (∀ (e : Expr) (budget : List Token) (c' : Cursor), e.bare = t → c'.Fits more → more.length ≤ budget.length →
      Meets (manyWithin qualifier budget) c' fun links c => Q (links.foldl Link.apply e) c) →
    Meets qualifiedName c Q

theorem isQualified_word {w : String} (h : Kind.ofWord w ∈ classKinds) : IsQualified [.word w] (.ident w default) := by
  intro c more Q hc hq
  refine .bind (.expect hc h fun t c _ ht hc => .bind (.many ?_))
  exact (hq _ c.rest c (by rw [ht]; rfl) hc (Nat.le_of_eq hc.length.symm)).mono fun links c h => .pure h

theorem IsQualified.member {t : Expr} (h : IsQualified ms t) (name : String) :
    IsQualified (ms ++ [Mark.symbol .dot, .name name]) (.member t (.plain name) false default) := by
  intro c more Q hc hq
  rw [List.append_assoc] at hc
  refine h c _ Q hc fun e budget c he hc hb => ?_
  cases budget with
  | nil => exact absurd hb (Nat.not_succ_le_zero _)
  | cons tok budget =>
    refine .manyWithin_some (.bind (.accept_true hc rfl fun c hc => .bind ?_))
    refine .propertyWord hc rfl fun w c hw hc =>
      (meets_ended (l := .member (.plain name) false) ?_ hc).mono fun o c ho => ?_
    · rw [hw]
      rfl
    obtain ⟨⟨l, stop, rfl, hl⟩, hc⟩ := ho
    have hb : more.length ≤ budget.length := by
      simp only [List.length_append, List.length_cons, List.length_nil] at hb
      omega
    exact ⟨_, rfl, hq _ budget c (by rw [Link.bare_apply, hl, he]; rfl) hc hb⟩

theorem IsQualified.reads {t : Expr} (h : IsQualified ms t) :
    Reads qualifiedName ms (· ≠ .symbol .dot) (·.bare = t) := by
  intro c more hc hf
  refine h c more _ hc fun e budget c he hc _ => .manyWithin_none (.bind (.accept_false hc hf ?_))
  exact .pure ⟨rfl, he, hc⟩

/-! ## Members -/

/-- The marks are read as the member. -/
def IsMember (ms : List Mark) (m : Member) : Prop :=
  ms ≠ [] ∧ (∀ s ∈ [Symbol.rightBrace, .semicolon], kindOf ms ≠ .symbol s) ∧ kindOf ms ≠ .eof ∧
    ∀ n, Reads (member (level n)) ms (· ≠ .symbol .semicolon) (·.bare = m)

/-- The name of a member as it is declared. -/
theorem reads_declaredName (name : PropertyName) (context : Context) :
    Reads (propertyName context) name.declaredMarks (fun _ => True) (· = name) := by
  intro c more hc _
  cases name with
  | plain s =>
    have hword := Kind.isWord_ofWord s
    have hhash : Kind.ofWord s ≠ .symbol .hash := fun h => by rw [h] at hword; cases hword
    refine .bind (.accept_false hc hhash (.bind (.propertyWord hc hword fun t c ht hc => ?_)))
    exact .pure ⟨congrArg PropertyName.plain ht, hc⟩
  | hashed s =>
    refine .bind (.accept_true hc rfl fun c hc => .bind (.propertyWord hc rfl fun t c ht hc => ?_))
    exact .pure ⟨congrArg PropertyName.hashed ht, hc⟩

/-- What follows the name of a method. -/
theorem reads_method (hp : AreBindings pss ps) (h : AreStmts mss ss) (n : Nat) (name : PropertyName) (kind : MethodKind)
    (start : Position) :
    Reads (method (level n) name kind default [] start) (callableMarks pss mss.flatten) (fun _ => True)
      (·.bare = .method name kind ⟨none, ps, none, some ⟨ss, default⟩, default⟩ default [] default) := by
  intro c more hc _
  refine .bind (.position fun start => .bind ?_)
  refine (reads_callableRest hp h n none start).meets hc trivial fun f c hf hc => .bind (.spanFrom fun _ => ?_)
  exact .pure ⟨by simp only [Member.bare, hf, Option.map_none, List.map_nil], hc⟩

/-- What follows the name of a field. -/
theorem reads_field {vs : List Mark} {v : Option Expr} (h : IsValue vs v) (n : Nat) (name : PropertyName)
    (start : Position) : Reads (field (level n) name default [] start) (vs ++ [Mark.symbol .semicolon]) (fun _ => True)
      (·.bare = .field name none v default [] default) := by
  intro c more hc _
  rw [List.append_assoc] at hc
  refine .bind (.optionalType_none hc (h.kindOf_ne_colon ⟨Nat.zero_lt_two, nofun⟩) ?_)
  cases v with
  | none =>
    obtain rfl := h
    refine .bind (.accept_false hc nofun (.bind (.pure (.bind ?_))))
    exact .accept_true hc rfl fun c hc => .bind (.spanFrom fun _ => .pure ⟨rfl, hc⟩)
  | some t =>
    obtain ⟨ms, rfl, ht⟩ := h
    refine .bind (.accept_true hc rfl fun c hc => .bind ((ht.2 n).meets hc Nat.zero_lt_two fun e c he hc => ?_))
    refine .bind (.pure (.bind (.accept_true hc rfl fun c hc => .bind (.spanFrom fun _ => ?_))))
    exact .pure ⟨by rw [← he]; rfl, hc⟩

/-- A name with which a method or a field may begin, so that it is not taken for a word in front of one. -/
def PropertyName.OpensMember : PropertyName → Prop
  | plain s => (default : Modifiers).add? (.ofWord s) = none ∧ Kind.ofWord s ≠ .keyword .construtor
  | hashed _ => True

namespace Grammar

/-- What follows the name with which a member begins. -/
def memberRest (inner : Inner) (name : PropertyName) (start : Position) : Parser Member := do
  if ← check (.symbol .leftParen) then method inner name .ordinary default [] start
  else field inner name default [] start

/-- A member with neither decorators nor modifiers. -/
def unmodifiedMember (inner : Inner) (start : Position) : Parser Member := do
  if ← accept (.keyword .construtor) then method inner (.plain "constructor") .constructor default [] start
  else
    let next := ((← get).peekNth 1).kind
    match accessor? (← kind), next.isWord || next == .symbol .hash with
    | some kind, true =>
      let _ ← advance
      method inner (← propertyName .classBody) kind default [] start
    | _, _ => memberRest inner (← propertyName .classBody) start

end Grammar

/-- Where neither a decorator nor a modifier comes, the rest of the member is read. -/
theorem isMember_of_unmodified {m : Member} (hne : ms ≠ [])
    (hsymbol : ∀ s ∈ [Symbol.rightBrace, .semicolon, .atSign], kindOf ms ≠ .symbol s) (heof : kindOf ms ≠ .eof)
    (hmodifier : (default : Modifiers).add? (kindOf ms) = none)
    (h : ∀ n start, Reads (unmodifiedMember (level n) start) ms (fun _ => True) (·.bare = m)) : IsMember ms m := by
  refine ⟨hne, fun s hs => hsymbol s ?_, heof, fun n c more hc _ => .bind (.position fun start => ?_)⟩
  · simp only [List.mem_cons, List.not_mem_nil, or_false] at hs ⊢
    exact hs.elim .inl fun hs => .inr (.inl hs)
  have hkind := kindOf_append hne more
  refine .bind (.many_none (.bind (.check_false hc (by rw [hkind]; exact hsymbol _ (by simp)) ?_)))
  refine .pure ⟨rfl, .bind (.many_none (.bind (.kind hc ?_)))⟩
  rw [hkind, hmodifier]
  exact .pure ⟨rfl, h n start c more hc trivial⟩

theorem Cursor.Fits.kind_peekNth_one {c : Cursor} {m m' : Mark} (h : c.Fits (m :: m' :: ms)) :
    (c.peekNth 1).kind = m'.kind := by
  obtain ⟨t, ts, hrest, -, htail⟩ := h.exists_cons
  obtain ⟨t', ts', hrest', ht', -⟩ := htail.exists_cons
  simp only at hrest'
  subst hrest'
  rw [Cursor.peekNth, hrest]
  exact ht'.1

/-- A constructor. -/
theorem isMember_constructor (hp : AreBindings pss ps) (h : AreStmts mss ss) :
    IsMember (.word "constructor" :: callableMarks pss mss.flatten)
      (.method (.plain "constructor") .constructor ⟨none, ps, none, some ⟨ss, default⟩, default⟩
        default [] default) := by
  have hkind : Kind.ofWord "constructor" = .keyword .construtor := Kind.ofWord_of_mem (.tail _ (.head _))
  rw [Mark.word, hkind]
  refine isMember_of_unmodified (List.cons_ne_nil _ _) (by rintro _ - ⟨⟩) (by rintro ⟨⟩) rfl
    fun n start c more hc _ => ?_
  refine .bind (.accept_true hc rfl fun c hc => ?_)
  exact reads_method hp h n _ _ start c more hc trivial

/-- A method or a field that begins with its name. -/
theorem isMember_of_name {name : PropertyName} (hname : name.OpensMember) {s : Symbol} {m : Member} (hs : s ≠ .hash)
    (h : ∀ n start, Reads (memberRest (level n) name start) (.symbol s :: ms) (fun _ => True) (·.bare = m)) :
    IsMember (name.declaredMarks ++ .symbol s :: ms) m := by
  have hread (n : Nat) (start : Position) :
      Reads (propertyName .classBody >>= fun name => memberRest (level n) name start)
      (name.declaredMarks ++ .symbol s :: ms) (fun _ => True) (·.bare = m) := by
    intro c more hc _
    rw [List.append_assoc] at hc
    refine .bind ((reads_declaredName name _).meets hc trivial fun name' c hname hc => ?_)
    rw [hname]
    exact h n start c more hc trivial
  cases name with
  | plain w =>
    have hword := Kind.isWord_ofWord w
    have hne {k : Kind} (hk : k.isWord = false) : Kind.ofWord w ≠ k := fun h => by rw [h, hk] at hword; cases hword
    refine isMember_of_unmodified (List.cons_ne_nil _ _) (fun s _ => hne rfl)
      (hne rfl) hname.1 fun n start c more hc _ => ?_
    refine .bind (.accept_false hc hname.2 (.bind (.get (.bind (.kind hc ?_)))))
    -- even the words of accessors are names before anything but a name
    have hnext : ((c.peekNth 1).kind.isWord || (c.peekNth 1).kind == .symbol .hash) = false := by
      rw [show (c.peekNth 1).kind = .symbol s from hc.kind_peekNth_one]
      simpa [Kind.isWord] using hs
    rw [hnext]
    cases accessor? (kindOf ((PropertyName.plain w).declaredMarks ++ .symbol s :: ms ++ more)) with
    | none => exact hread n start c more hc trivial
    | some kind => exact hread n start c more hc trivial
  | hashed w =>
    have hsymbol (t : Symbol) (ht : t ∈ [Symbol.rightBrace, .semicolon, .atSign]) : Kind.symbol .hash ≠ .symbol t := by
      rintro ⟨⟩
      exact absurd ht (by decide)
    refine isMember_of_unmodified (List.cons_ne_nil _ _) hsymbol (by rintro ⟨⟩) rfl fun n start c more hc _ => ?_
    refine .bind (.accept_false hc (by rintro ⟨⟩) (.bind (.get (.bind (.kind hc ?_)))))
    exact hread n start c more hc trivial

theorem isMember_method {name : PropertyName} (hname : name.OpensMember) (hp : AreBindings pss ps)
    (h : AreStmts mss ss) : IsMember (name.declaredMarks ++ callableMarks pss mss.flatten)
      (.method name .ordinary ⟨none, ps, none, some ⟨ss, default⟩, default⟩ default [] default) := by
  refine isMember_of_name (s := .leftParen) hname nofun fun n start c more hc _ => .bind (.check_true hc rfl ?_)
  exact reads_method hp h n name _ start c more hc trivial

theorem isMember_field {name : PropertyName} (hname : name.OpensMember) {vs : List Mark} {v : Option Expr}
    (h : IsValue vs v) : IsMember (name.declaredMarks ++ (vs ++ [Mark.symbol .semicolon]))
      (.field name none v default [] default) := by
  obtain ⟨s, ms, hms, hs, hparen⟩ : ∃ s ms, vs ++ [.symbol .semicolon] = .symbol s :: ms ∧ s ≠ .hash ∧
      s ≠ .leftParen := by
    cases v with
    | none =>
      obtain rfl := h
      exact ⟨.semicolon, [], rfl, nofun, nofun⟩
    | some t =>
      obtain ⟨ms, rfl, -⟩ := h
      exact ⟨.assign, ms ++ [.symbol .semicolon], rfl, nofun, nofun⟩
  have hfield := reads_field h
  rw [hms] at hfield ⊢
  refine isMember_of_name hname hs fun n start c more hc _ => ?_
  have hkind : kindOf (Mark.symbol s :: ms ++ more) ≠ .symbol .leftParen := fun hk => hparen (Kind.symbol.inj hk)
  exact .bind (.check_false hc hkind (hfield n name start c more hc trivial))

theorem accessor?_marks {kind : MethodKind} (h : kind = .getter ∨ kind = .setter) :
    ∃ w k, kind.marks = [.word w] ∧ Kind.ofWord w = .keyword k ∧ accessor? (.keyword k) = some kind ∧
      (default : Modifiers).add? (.keyword k) = none ∧ k ≠ .construtor := by
  rcases h with rfl | rfl
  · exact ⟨"get", .get, rfl, Kind.ofWord_of_mem (.head _), rfl, rfl, nofun⟩
  · exact ⟨"set", .set, rfl, Kind.ofWord_of_mem (.head _), rfl, rfl, nofun⟩

/-- The name of a member begins with a word or the sign of a private name. -/
theorem PropertyName.declaredMarks_cons (name : PropertyName) :
    ∃ m ms, name.declaredMarks = m :: ms ∧ (m.kind.isWord || m.kind == .symbol .hash) = true := by
  cases name with
  | plain s => exact ⟨_, _, rfl, by rw [Mark.word, Kind.isWord_ofWord, Bool.true_or]⟩
  | hashed s => exact ⟨_, _, rfl, rfl⟩

/-- A method that is called by reading or writing a property. -/
theorem isMember_accessor {kind : MethodKind} (hkind : kind = .getter ∨ kind = .setter) (name : PropertyName)
    (hp : AreBindings pss ps) (h : AreStmts mss ss) :
    IsMember (kind.marks ++ name.declaredMarks ++ callableMarks pss mss.flatten)
      (.method name kind ⟨none, ps, none, some ⟨ss, default⟩, default⟩ default [] default) := by
  obtain ⟨w, k, hmarks, hk, haccessor, hmodifier⟩ := accessor?_marks hkind
  obtain ⟨m, ns, hname, hm⟩ := name.declaredMarks_cons
  rw [hmarks, List.singleton_append, Mark.word, hk]
  refine isMember_of_unmodified (List.cons_ne_nil _ _) (by rintro _ - ⟨⟩) (by rintro ⟨⟩) hmodifier.1
    fun n start c more hc _ => ?_
  rw [List.append_assoc, List.cons_append] at hc
  refine .bind (.accept_false hc (fun h => hmodifier.2 (Kind.keyword.inj h)) ?_)
  refine .bind (.get (.bind (.kind hc ?_)))
  have hnext : ((c.peekNth 1).kind.isWord || (c.peekNth 1).kind == .symbol .hash) = true := by
    rw [hname] at hc
    rw [hc.kind_peekNth_one]
    exact hm
  rw [hnext]
  simp only [kindOf, haccessor]
  refine .bind (.advance hc fun _ c _ _ hc => .bind ?_)
  refine (reads_declaredName name _).meets hc trivial fun name' c hname hc => ?_
  rw [hname]
  exact reads_method hp h n name kind start c more hc trivial

/-! ## Classes -/

/-- Members, one by one. -/
abbrev AreMembers : List (List Mark) → List Member → Prop := List.Forall₂ IsMember

theorem membersBare_eq_map (ms : List Member) : membersBare ms = ms.map Member.bare := by
  induction ms with
  | nil => rfl
  | cons m ms ih => rw [membersBare, ih, List.map_cons]

theorem AreMembers.readItems {members : List Member} (h : AreMembers mss members) (n : Nat) :
    ReadItems (member (level n)) (· ≠ .symbol .semicolon) Member.bare mss members :=
  h.imp fun _ _ ⟨hne, hsymbol, heof, hread⟩ => ⟨hread n, hne, hsymbol _ (by simp), hsymbol _ (by simp), heof⟩

/-- The base of a class, if it has one. -/
def IsHeritage (ms : List Mark) : Option Expr → Prop
  | none => ms = []
  | some t => ∃ bs, ms = .word "extends" :: bs ∧ IsQualified bs t

/-- The part of a class behind its base. -/
def Grammar.classRest (inner : Inner) (name : Ident) (base : Option Expr) (start : Position) : Parser Stmt := do
  let interfaces ← interfaces
  let _ ← expectSymbol .leftBrace .classBody
  let members ← separated (member inner)
  let _ ← expectSymbol .rightBrace .classBody
  return .classDecl name base interfaces members (← spanFrom start)

theorem reads_classRest {members : List Member} (h : AreMembers mss members) (n : Nat) (name : Ident)
    (base : Option Expr) (start : Position) :
    Reads (classRest (level n) name base start) (inBraces mss.flatten) (fun _ => True)
      (·.bare = .classDecl name.bare (optExprBare base) [] members default) := by
  intro c more hc _
  rw [inBraces_append] at hc
  refine .bind (.bind (.accept_false hc nofun (.pure (.bind ?_))))
  refine .expectSymbol hc fun _ c hc => .bind ?_
  refine (reads_separated (h.readItems n) (fun h => h rfl) nofun).meets hc rfl fun ms c hms hc => ?_
  refine .bind (.expectSymbol hc fun _ c hc => .bind (.spanFrom fun _ => .pure ⟨?_, hc⟩))
  simp only [Stmt.bare, membersBare_eq_map, hms, List.map_nil]

theorem isStmt_class {name : Ident} (hname : Kind.ofWord name.name = .identifier) {hs : List Mark} {base : Option Expr}
    (hbase : IsHeritage hs base) {members : List Member} (h : AreMembers mss members) :
    IsStmt (.word "class" :: .word name.name :: hs ++ inBraces mss.flatten)
      (.classDecl name.bare base [] members default) := by
  rw [List.cons_append]
  refine isStmt_of_word (k := .classe) (.tail _ (.head _)) rfl (by decide) fun n c more hc _ => ?_
  simp only [List.cons_append, List.append_assoc] at hc
  refine .bind (.kind hc (.bind (.position fun start => .bind ?_)))
  refine .expect hc (by simp) fun _ c _ _ hc => .bind (.identifier hc hname fun id c hid hc => ?_)
  have hid : id.bare = name.bare := by rw [Ident.bare, hid]; rfl
  cases base with
  | none =>
    obtain rfl := hbase
    refine .bind (.accept_false hc (by rintro ⟨⟩) (.bind (.pure ?_)))
    exact (reads_classRest h n id none start).meets hc trivial fun s c hs hc => ⟨by rw [← hid]; exact hs, hc⟩
  | some t =>
    obtain ⟨bs, rfl, ht⟩ := hbase
    have hkind : Kind.ofWord "extends" = .keyword .estende := Kind.ofWord_of_mem (.tail _ (.head _))
    refine .bind (.accept_true hc hkind fun c hc => .bind (ht.reads.meets hc (by rintro ⟨⟩) fun e c he hc => ?_))
    refine .bind (.pure ((reads_classRest h n id (some e) start).meets hc trivial fun s c hs hc => ⟨?_, hc⟩))
    rw [← hid, ← he]
    exact hs

end Vernacular
