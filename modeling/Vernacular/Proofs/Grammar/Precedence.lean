import Vernacular.Proofs.Grammar.Extension

/-!
# How operators group

Operands with operators between them are read as the one tree in which the operators group by their levels: in it, an
operand of an operator binds more tightly than the operator, or as tightly on the side to which the operator groups.

- `OpTree.Grouped`: trees that group by levels;
- `OpTree.group`, `OpTree.Grouped.unique`: there is one such tree for every sequence of operands and operators;
- `OpTree.Grouped.isAt`: the reader of a level reads the tokens of a tree of that level or a tighter one;
- `expression_grouped`: the reader of expressions reads the tree of the sequence.
-/

namespace Vernacular

open Grammar Vernacular.Parser

/-! ## Sequences and trees -/

/-- Tokens that are read to the last one as an operand. -/
structure Operand where
  tokens : List Token
  tree : Expr
  reads : ∃ c, unary outermost (.ofTokens tokens) = .ok tree c ∧ c.rest = []

/-- A token for an operator between operands. -/
structure Infix where
  token : Token
  op : BinaryOp
  kind : token.kind = op.mark.kind

/-- The tokens of operands with operators between them. -/
def sequenceTokens (first : Operand) (others : List (Infix × Operand)) : List Token :=
  first.tokens ++ others.flatMap fun p => p.1.token :: p.2.tokens

/-- Operators with the operands to their left and right. -/
inductive OpTree where
  | leaf (x : Operand)
  | node (o : Infix) (left right : OpTree)

/-- An operator may be the left operand of another one. -/
def BinaryOp.HoldsLeft (op child : BinaryOp) : Prop :=
  if op = .exponent then op.precedence < child.precedence else op.precedence ≤ child.precedence

/-- An operator may be the right operand of another one. -/
def BinaryOp.HoldsRight (op child : BinaryOp) : Prop :=
  if op = .exponent then op.precedence ≤ child.precedence else op.precedence < child.precedence

instance (op child : BinaryOp) : Decidable (op.HoldsRight child) := inferInstanceAs (Decidable (ite _ _ _))

instance (op child : BinaryOp) : Decidable (op.HoldsLeft child) := inferInstanceAs (Decidable (ite _ _ _))

namespace OpTree

/-- The operands and operators as they follow one another. -/
def sequence : OpTree → Operand × List (Infix × Operand)
  | leaf x => (x, [])
  | node o l r => (l.sequence.1, l.sequence.2 ++ (o, r.sequence.1) :: r.sequence.2)

def tokens : OpTree → List Token
  | leaf x => x.tokens
  | node o l r => l.tokens ++ o.token :: r.tokens

/-- The expression of the tree, with what the operands were read as for its leaves. -/
def toExpr : OpTree → Expr
  | leaf x => x.tree
  | node o l r => l.toExpr.join (o.op, r.toExpr)

/-- The operator at the top. -/
def root : OpTree → Option BinaryOp
  | leaf _ => none
  | node o _ _ => some o.op

/-- Operators that are operands of others may be so. -/
def Grouped : OpTree → Prop
  | leaf _ => True
  | node o l r => l.Grouped ∧ r.Grouped ∧ (∀ op ∈ l.root, o.op.HoldsLeft op) ∧ ∀ op ∈ r.root, o.op.HoldsRight op

instance decidableGrouped : (t : OpTree) → Decidable t.Grouped
  | leaf _ => isTrue trivial
  | node _ l r =>
    have := decidableGrouped l
    have := decidableGrouped r
    inferInstanceAs (Decidable (_ ∧ _ ∧ _ ∧ _))

theorem tokens_eq (t : OpTree) : t.tokens = sequenceTokens t.sequence.1 t.sequence.2 := by
  induction t with
  | leaf x => simp [tokens, sequence, sequenceTokens]
  | node o l r ihl ihr => simp [tokens, sequence, ihl, ihr, sequenceTokens]

/-! ## Levels -/

end OpTree

theorem BinaryOp.precedence_bounds (op : BinaryOp) :
    3 ≤ op.precedence ∧ op.precedence ≤ 13 ∧ (op.precedence = 13 ↔ op = .exponent) := by
  cases op <;> decide

namespace OpTree

/-- The level of the operator at the top; operands without operators bind more tightly. -/
def level (t : OpTree) : Nat := (t.root.map BinaryOp.precedence).getD 14

theorem level_bounds (t : OpTree) : 3 ≤ t.level ∧ t.level ≤ 14 := by
  cases t with
  | leaf x =>
    show 3 ≤ 14 ∧ 14 ≤ 14
    omega
  | node o l r =>
    have := o.op.precedence_bounds
    show 3 ≤ o.op.precedence ∧ o.op.precedence ≤ 14
    omega

variable {o o' : Infix} {l r l' r' t t' : OpTree}

/-- On the left of an operator stands what binds at least as tightly, and on the left of a power what binds more
tightly. -/
theorem Grouped.left_level (h : (node o l r).Grouped) :
    o.op.precedence ≤ l.level ∧ (o.op = .exponent → o.op.precedence < l.level) := by
  have hbounds := o.op.precedence_bounds
  cases l with
  | leaf x =>
    show o.op.precedence ≤ 14 ∧ (_ → o.op.precedence < 14)
    omega
  | node p l₁ l₂ =>
    have hleft : o.op.HoldsLeft p.op := h.2.2.1 p.op rfl
    show o.op.precedence ≤ p.op.precedence ∧ (_ → o.op.precedence < p.op.precedence)
    unfold BinaryOp.HoldsLeft at hleft
    split at hleft
    · exact ⟨Nat.le_of_lt hleft, fun _ => hleft⟩
    · exact ⟨hleft, fun hexp => absurd hexp ‹_›⟩

/-- On the right of an operator stands what binds more tightly, and on the right of a power what binds at least as
tightly. -/
theorem Grouped.right_level (h : (node o l r).Grouped) :
    o.op.precedence ≤ r.level ∧ (o.op ≠ .exponent → o.op.precedence < r.level) := by
  have hbounds := o.op.precedence_bounds
  cases r with
  | leaf x =>
    show o.op.precedence ≤ 14 ∧ (_ → o.op.precedence < 14)
    omega
  | node p r₁ r₂ =>
    have hright : o.op.HoldsRight p.op := h.2.2.2 p.op rfl
    show o.op.precedence ≤ p.op.precedence ∧ (_ → o.op.precedence < p.op.precedence)
    unfold BinaryOp.HoldsRight at hright
    split at hright
    · exact ⟨hright, fun hexp => absurd ‹_› hexp⟩
    · exact ⟨Nat.le_of_lt hright, fun _ => hright⟩

/-! ## One tree for every sequence -/

/-- No operator of a tree binds more loosely than the one at the top. -/
theorem Grouped.level_le (h : t.Grouped) {p : Infix × Operand} (hp : p ∈ t.sequence.2) :
    t.level ≤ p.1.op.precedence := by
  induction t with
  | leaf x => cases hp
  | node o l r ihl ihr =>
    show o.op.precedence ≤ p.1.op.precedence
    rcases List.mem_append.mp hp with hl | hr
    · exact Nat.le_trans h.left_level.1 (ihl h.1 hl)
    · rcases List.mem_cons.mp hr with rfl | hr
      · exact Nat.le_refl _
      · exact Nat.le_trans h.right_level.1 (ihr h.2.1 hr)

/-- Two operators cannot each be on the top of a tree that groups them, the one on the left of the other. -/
theorem Grouped.not_crossed (h : (node o l r).Grouped) (h' : (node o' l' r').Grouped)
    (hl' : l'.level ≤ o.op.precedence) (hr : r.level ≤ o'.op.precedence) : False := by
  have hleft := h'.left_level
  have hright := h.right_level
  by_cases hexp : o.op = .exponent
  · -- then the other one is a power too, and a power is no left operand of a power
    have hprec := o.op.precedence_bounds.2.2.mpr hexp
    have hbounds' := o'.op.precedence_bounds
    have := hleft.2 (hbounds'.2.2.mp (by omega))
    omega
  · have := hright.2 hexp
    omega

/-- At most one tree groups a sequence. -/
theorem Grouped.unique (h : t.Grouped) (h' : t'.Grouped) (hs : t.sequence = t'.sequence) : t = t' := by
  induction t generalizing t' with
  | leaf x =>
    cases t' with
    | leaf x' => rw [(Prod.mk.inj hs).1]
    | node o' l' r' => simp [sequence] at hs
  | node o l r ihl ihr =>
    cases t' with
    | leaf x' => simp [sequence] at hs
    | node o' l' r' =>
      obtain ⟨hfirst, hothers⟩ := Prod.mk.inj hs
      rcases List.append_eq_append_iff.mp hothers with ⟨ps, hl, hr⟩ | ⟨ps, hl, hr⟩
      · cases ps with
        | nil =>
          rw [List.append_nil] at hl
          obtain ⟨hhead, htail⟩ := List.cons.inj hr
          obtain ⟨rfl, hsecond⟩ := Prod.mk.inj hhead
          rw [ihl h.1 h'.1 (Prod.ext hfirst hl.symm), ihr h.2.1 h'.2.1 (Prod.ext hsecond htail)]
        | cons p ps =>
          obtain ⟨rfl, htail⟩ := List.cons.inj hr
          refine (h.not_crossed h' (h'.1.level_le (p := (o, r.sequence.1)) ?_)
            (h.2.1.level_le (p := (o', r'.sequence.1)) ?_)).elim
          · simp [hl]
          · simp [htail]
      · cases ps with
        | nil =>
          rw [List.append_nil] at hl
          obtain ⟨hhead, htail⟩ := List.cons.inj hr
          obtain ⟨rfl, hsecond⟩ := Prod.mk.inj hhead
          rw [ihl h.1 h'.1 (Prod.ext hfirst hl), ihr h.2.1 h'.2.1 (Prod.ext hsecond.symm htail.symm)]
        | cons p ps =>
          obtain ⟨rfl, htail⟩ := List.cons.inj hr
          refine (h'.not_crossed h (h.1.level_le (p := (o', r'.sequence.1)) ?_)
            (h'.2.1.level_le (p := (o, r.sequence.1)) ?_)).elim
          · simp [hl]
          · simp [htail]

/-- The tree with one more operator and operand behind it: the operator goes down on the right, past those that hold
it. -/
def push (o : Infix) (x : Operand) : OpTree → OpTree
  | leaf y => node o (leaf y) (leaf x)
  | node p l r => if p.op.HoldsRight o.op then node p l (r.push o x) else node o (node p l r) (leaf x)

theorem sequence_push (o : Infix) (x : Operand) (t : OpTree) :
    (t.push o x).sequence = (t.sequence.1, t.sequence.2 ++ [(o, x)]) := by
  induction t with
  | leaf y => rfl
  | node p l r ihl ihr =>
    rw [push]
    split
    · simp [sequence, ihr]
    · rfl

theorem root_push (o : Infix) (x : Operand) (t : OpTree) :
    (t.push o x).root = some o.op ∨ (t.push o x).root = t.root := by
  cases t with
  | leaf y => exact .inl rfl
  | node p l r =>
    rw [push]
    split
    · exact .inr rfl
    · exact .inl rfl

/-- Of two operators that follow one another, one may be the operand of the other. -/
theorem holdsLeft_of_not_holdsRight {op op' : BinaryOp} (h : ¬ op.HoldsRight op') : op'.HoldsLeft op := by
  have hbounds := op.precedence_bounds
  have hbounds' := op'.precedence_bounds
  unfold BinaryOp.HoldsRight at h
  unfold BinaryOp.HoldsLeft
  split at h
  · rename_i hexp
    have hprec := hbounds.2.2.mpr hexp
    split
    · omega
    · omega
  · rename_i hexp
    split
    · rename_i hexp'
      have hprec' := hbounds'.2.2.mpr hexp'
      exact absurd (hbounds.2.2.mp (by omega)) hexp
    · omega

theorem Grouped.push (h : t.Grouped) (o : Infix) (x : Operand) : (t.push o x).Grouped := by
  induction t with
  | leaf y => exact ⟨trivial, trivial, nofun, nofun⟩
  | node p l r ihl ihr =>
    rw [OpTree.push]
    split
    · rename_i hholds
      refine ⟨h.1, ihr h.2.1, h.2.2.1, fun op hop => ?_⟩
      rcases root_push o x r with hroot | hroot
      · rw [hroot] at hop
        cases hop
        exact hholds
      · rw [hroot] at hop
        exact h.2.2.2 op hop
    · rename_i hholds
      refine ⟨h, trivial, fun op hop => ?_, nofun⟩
      cases hop
      exact holdsLeft_of_not_holdsRight hholds

/-- The tree of a sequence. -/
def group (first : Operand) (others : List (Infix × Operand)) : OpTree :=
  others.foldl (fun t p => t.push p.1 p.2) (leaf first)

theorem grouped_foldl_push (h : t.Grouped) (others : List (Infix × Operand)) :
    (others.foldl (fun t p => t.push p.1 p.2) t).Grouped ∧
      (others.foldl (fun t p => t.push p.1 p.2) t).sequence = (t.sequence.1, t.sequence.2 ++ others) := by
  induction others generalizing t with
  | nil => exact ⟨h, by simp⟩
  | cons p others ih =>
    obtain ⟨hgrouped, hsequence⟩ := ih (h.push p.1 p.2)
    refine ⟨hgrouped, ?_⟩
    rw [List.foldl_cons, hsequence, sequence_push]
    simp

theorem group_spec (first : Operand) (others : List (Infix × Operand)) :
    (group first others).Grouped ∧ (group first others).sequence = (first, others) :=
  grouped_foldl_push (t := leaf first) trivial others

end OpTree

/-! ## Reading levels -/

theorem Infix.fences (o : Infix) : o.token.kind.Fences := by
  rw [o.kind]
  cases o.op with
  | instanceOf => exact ⟨by decide +kernel, by decide +kernel, by decide +kernel⟩
  | _ => exact ⟨by decide, nofun, nofun⟩

namespace OpTree

/-- The tokens of the tree, and what comes next. -/
def stretch (t : OpTree) (more : List Token) : Stretch where
  start c := c.rest = t.tokens ++ more
  stop c := c.rest = more
  next := firstKind more
  size := more.length
  kind_stop hc := by rw [Cursor.peek, hc, firstKind]
  size_stop hc := by rw [hc]

/-- The reader of level `L` reads the tokens of the tree as its expression, before anything that binds more loosely. -/
def IsAt (L : Nat) (t : OpTree) : Prop :=
  ∀ n more, (firstKind more).Fences → (t.stretch more).IsRead (Grammar.level n) L (· = t.toExpr)

/-- Behind the tokens of the tree, the reader of level `L` goes on with operators of that level. -/
def IsChain (L : Nat) (t : OpTree) : Prop :=
  ∀ n more, (firstKind more).Fences → (t.stretch more).IsBegun (Grammar.level n) L (· = t.toExpr)

variable {L : Nat}

theorem stretch_node (o : Infix) (l r : OpTree) (more : List Token) : (node o l r).stretch more =
    (l.stretch (o.token :: (r.tokens ++ more))).join (r.stretch more) := by
  simp only [stretch, Stretch.join, tokens, List.append_assoc, List.cons_append]

theorem stretch_advance {o : Infix} {l r : OpTree} {more : List Token} {c : Cursor}
    (hc : (l.stretch (o.token :: (r.tokens ++ more))).stop c) : (r.stretch more).start c.advance.2 := by
  show c.advance.2.rest = r.tokens ++ more
  have hrest : c.rest = o.token :: (r.tokens ++ more) := hc
  rw [Cursor.advance_rest, hrest, List.tail_cons]

/-- An operand is read as it is alone. -/
theorem isAt_leaf (x : Operand) : IsAt 14 (leaf x) := by
  intro n more hf _ c hc
  show Meets (unary (Grammar.level n)) c _
  obtain ⟨previous, rest⟩ := c
  obtain rfl : rest = x.tokens ++ more := hc
  obtain ⟨c, hrun, hrest⟩ := x.reads
  have hread : Progress (unary (Grammar.level maxDepth)) := inferInstance
  have hlt := hread.lt _ _ _ hrun
  cases htokens : x.tokens with
  | nil =>
    rw [htokens] at hlt
    exact absurd hlt (Nat.not_lt_zero _)
  | cons t ts =>
    rw [htokens] at hrun
    have hrun := fresh_unary none previous t ts x.tree c hrun
    refine (extends_operand hf maxDepth n ⟨previous, t :: ts⟩ x.tree c hrun).mono fun e d h => ⟨h.1, ?_⟩
    show d.rest = more
    rw [h.2, Cursor.extend, hrest, List.nil_append]

/-- A power. One level further in, its right operand is read by the same reader. -/
theorem IsAt.power {o : Infix} {l r : OpTree} (h : IsAt 14 l) (hr : IsAt 13 r) (hexp : o.op = .exponent) :
    IsAt 13 (node o l r) := by
  intro n more hf
  have hkind : o.token.kind = .symbol .exponent := by
    rw [o.kind, hexp]
    rfl
  have hinner : (r.stretch more).next.power < 13 → ∀ c, (r.stretch more).start c →
      Meets (Grammar.level n).exponent c fun e c' => e = r.toExpr ∧ (r.stretch more).stop c' := by
    cases n with
    | zero => exact fun _ _ _ => .tooDeep
    | succ n => exact hr n more hf
  rw [stretch_node]
  refine (h n (o.token :: (r.tokens ++ more)) o.fences).power hkind (fun c => stretch_advance) hinner ?_
  intro left right hleft hright
  rw [hleft, hright, toExpr, hexp]

/-- One more operator and its right operand. -/
theorem IsChain.node {o : Infix} {l r : OpTree} (h : IsChain o.op.precedence l) (hop : o.op ≠ .exponent)
    (hr : IsAt (o.op.precedence + 1) r) : IsChain o.op.precedence (node o l r) := by
  intro n more hf
  rw [stretch_node]
  have hsize : more.length < (o.token :: (r.tokens ++ more)).length := by
    rw [List.length_cons, List.length_append]
    omega
  refine (h n (o.token :: (r.tokens ++ more)) o.fences).operator hop o.kind (fun c => stretch_advance) hsize
    (hr n more hf) ?_
  intro left right hleft hright
  rw [hleft, hright, toExpr]

theorem IsAt.descend {L' : Nat} {t : OpTree} (h : IsAt L' t) (hlow : 2 ≤ L) (hle : L ≤ L') (hhigh : L' ≤ 14) :
    IsAt L t :=
  fun n more hf => (h n more hf).descend hlow hle hhigh

/-- The reader of its level reads a tree, and goes on behind it with operators of the level if it groups to the left.
The induction is over the tree: on the left of an operator, the reader of the level has got as far as the left
operand. -/
theorem Grouped.isAt {t : OpTree} (h : t.Grouped) :
    IsAt t.level t ∧ (t.level ∈ chainLevels → IsChain t.level t) := by
  induction t with
  | leaf x => exact ⟨isAt_leaf x, fun hchain => absurd hchain (show 14 ∉ chainLevels by decide)⟩
  | node o l r ihl ihr =>
    show IsAt o.op.precedence _ ∧ (o.op.precedence ∈ chainLevels → IsChain o.op.precedence _)
    obtain ⟨hl, hlchain⟩ := ihl h.1
    obtain ⟨hr, -⟩ := ihr h.2.1
    have hlevel := l.level_bounds
    have hlevel' := r.level_bounds
    have hleft := h.left_level
    have hright := h.right_level
    by_cases hexp : o.op = .exponent
    · have hprec : o.op.precedence = 13 := o.op.precedence_bounds.2.2.mpr hexp
      have hless := hleft.2 hexp
      rw [hprec] at hright hless ⊢
      refine ⟨IsAt.power ?_ (hr.descend (by decide) hright.1 hlevel'.2) hexp, fun hchain => absurd hchain (by decide)⟩
      exact hl.descend (by decide) hless hlevel.2
    · obtain ⟨hchain, -⟩ := opAt_mark hexp
      have hbounds := o.op.precedence_bounds
      have hlchain : IsChain o.op.precedence l := by
        by_cases hsame : l.level = o.op.precedence
        · rw [← hsame]
          exact hlchain (hsame ▸ hchain)
        · have hnext : IsAt (o.op.precedence + 1) l := hl.descend (by omega) (by omega) hlevel.2
          exact fun n more hf => (hnext n more hf).begun hchain
      have hnode := hlchain.node hexp (hr.descend (by omega) (hright.2 hexp) hlevel'.2)
      exact ⟨fun n more hf => (hnode n more hf).read, fun _ => hnode⟩

end OpTree

/-! ## Expressions -/

/-- Operands with operators between them are read, to the last token, as the one tree that groups them by their
levels. -/
theorem expression_grouped (first : Operand) (others : List (Infix × Operand)) {stop : Token}
    (hstop : stop.kind = .eof) : ∃ t : OpTree, (t.Grouped ∧ t.sequence = (first, others)) ∧
      (∀ t' : OpTree, t'.Grouped → t'.sequence = (first, others) → t' = t) ∧
      ((∃ position context c, outermost.expression (.ofTokens (sequenceTokens first others ++ [stop])) =
          .error (.tooDeep position context) c) ∨
        ∃ c, outermost.expression (.ofTokens (sequenceTokens first others ++ [stop])) = .ok t.toExpr c ∧
        c.rest = [stop]) := by
  obtain ⟨hgrouped, hsequence⟩ := OpTree.group_spec first others
  refine ⟨.group first others, ⟨hgrouped, hsequence⟩, fun t' h' hs => ?_, ?_⟩
  · exact h'.unique hgrouped (hs.trans hsequence.symm)
  · have htokens : (OpTree.group first others).tokens = sequenceTokens first others := by
      rw [OpTree.tokens_eq, hsequence]
    have hbounds := (OpTree.group first others).level_bounds
    have hread : OpTree.IsAt 2 (.group first others) := hgrouped.isAt.1.descend (by decide) (by omega) hbounds.2
    have hend : firstKind [stop] = .eof := hstop
    have hmeets := hread 127 [stop] (hend ▸ Kind.fences_eof) (show (firstKind [stop]).power < 2 by rw [hend]; decide)
      (.ofTokens (sequenceTokens first others ++ [stop])) (by rw [← htokens]; rfl)
    rcases Meets.cases hmeets with hdeep | ⟨e, c, hrun, rfl, hc⟩
    · exact .inl hdeep
    · exact .inr ⟨c, hrun, hc⟩

/-- A token on the first line. -/
def tokenAt (kind : Kind) (text : String) (column : Nat) : Token :=
  ⟨kind, text, ⟨1, column, column - 1⟩, ⟨1, column + text.length, column + text.length - 1⟩⟩

/-- A number. -/
def numeral (text : String) (column : Nat) : Operand where
  tokens := [tokenAt .number text column]
  tree := .literal (.number text) (tokenAt .number text column).span
  reads := ⟨⟨some (tokenAt .number text column), []⟩, rfl, rfl⟩

/-- A number with a sign. -/
def negated (text : String) (column : Nat) : Operand where
  tokens := tokenAt (.symbol .minus) "-" column :: (numeral text (column + 1)).tokens
  tree := .unary .negate (numeral text (column + 1)).tree
    ⟨(tokenAt (.symbol .minus) "-" column).start, (tokenAt .number text (column + 1)).stop⟩
  reads := ⟨⟨some (tokenAt .number text (column + 1)), []⟩, rfl, rfl⟩

def minusSign (column : Nat) : Infix := ⟨tokenAt (.symbol .minus) "-" column, .subtract, rfl⟩

def powerSign (column : Nat) : Infix := ⟨tokenAt (.symbol .exponent) "**" column, .exponent, rfl⟩

/-- The differences in `1 - 2 ** 3 ** -4 - 5` group to the left, the powers to the right and before them. -/
def differences : OpTree :=
  .node (minusSign 18)
    (.node (minusSign 3) (.leaf (numeral "1" 1))
      (.node (powerSign 7) (.leaf (numeral "2" 5))
        (.node (powerSign 12) (.leaf (numeral "3" 10)) (.leaf (negated "4" 15)))))
    (.leaf (numeral "5" 20))

theorem expression_grouped_powers : (tokenAt .eof "" 21).kind = .eof ∧
    differences.sequence = (numeral "1" 1, [(minusSign 3, numeral "2" 5), (powerSign 7, numeral "3" 10),
      (powerSign 12, negated "4" 15), (minusSign 18, numeral "5" 20)]) ∧
    ∃ c, outermost.expression (.ofTokens (sequenceTokens differences.sequence.1 differences.sequence.2 ++
      [tokenAt .eof "" 21])) = .ok differences.toExpr c ∧ c.rest = [tokenAt .eof "" 21] := by
  have hreads : (match outermost.expression (.ofTokens (sequenceTokens differences.sequence.1 differences.sequence.2 ++
      [tokenAt .eof "" 21])) with | .ok .. => true | .error .. => false) = true := by decide +kernel
  refine ⟨rfl, rfl, ?_⟩
  obtain ⟨t, -, hunique, hdeep | ⟨c, hrun, hc⟩⟩ :=
    expression_grouped differences.sequence.1 differences.sequence.2 (show (tokenAt .eof "" 21).kind = .eof from rfl)
  · obtain ⟨position, context, c, he⟩ := hdeep
    rw [he] at hreads
    cases hreads
  · have hgrouped : differences.Grouped := by decide
    rw [← hunique differences hgrouped rfl] at hrun
    exact ⟨c, hrun, hc⟩

end Vernacular
