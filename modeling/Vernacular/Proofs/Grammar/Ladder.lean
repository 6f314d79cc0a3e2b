import Vernacular.Proofs.Grammar.Operand

/-!
# Reading operators

The levels of operators have numbers, as in generated code: from `2` for assignment to `14` for operators in front of
their operand. `IsAt L ms t` says that the reader of level `L` reads the marks as `t`, before any kind that binds more
loosely than the level. What is read at one level is read at every lower one (`IsAt.descend`).

The operators from `3` to `12` group to the left: behind a whole operand the reader of their level may go on with
another operator of the same level. `IsChain L ms t` says how far it has got.

How the levels work together does not depend on what is known of the tokens ahead. It is said first for any `Stretch` of
a reader's way, from the places where it may begin to those where it ends.
-/

namespace Vernacular

open Grammar Vernacular.Parser

variable {op : BinaryOp}

/-! ## Levels -/

namespace Grammar

/-- The reader of a level. -/
def parserAt (inner : Inner) : Nat → Parser Expr
  | 0 | 1 | 2 => assignment inner
  | 3 => logicalOr inner
  | 4 => logicalAnd inner
  | 5 => bitwiseOr inner
  | 6 | 7 => bitwiseAnd inner
  | 8 => equality inner
  | 9 => relational inner
  | 10 => shift inner
  | 11 => additive inner
  | 12 => multiplicative inner
  | 13 => exponent inner
  | _ => unary inner

/-- The operators of a level that groups to the left. -/
def opAt : Nat → Kind → Option BinaryOp
  | 3 => logicalOrOp?
  | 4 => logicalAndOp?
  | 5 => bitwiseOrOp?
  | 7 => bitwiseAndOp?
  | 8 => equalityOp?
  | 9 => relationalOp?
  | 10 => shiftOp?
  | 11 => additiveOp?
  | 12 => multiplicativeOp?
  | _ => fun _ => none

/-- The levels that group to the left. -/
def chainLevels : List Nat := [3, 4, 5, 7, 8, 9, 10, 11, 12]

/-- An operator of a level and its right operand. -/
def chainItem (op? : Kind → Option BinaryOp) (operand : Parser Expr) : Parser (Option (BinaryOp × Expr)) := do
  match op? (← kind) with
  | none => return none
  | some op =>
    let _ ← advance
    return some (op, ← operand)

theorem parserAt_chain {L : Nat} (h : L ∈ chainLevels) (inner : Inner) :
    parserAt inner L = leftChain (opAt L) (parserAt inner (L + 1)) := by
  simp only [chainLevels, List.mem_cons, List.not_mem_nil, or_false] at h
  rcases h with rfl | rfl | rfl | rfl | rfl | rfl | rfl | rfl | rfl <;> rfl

theorem power_of_opAt {L : Nat} {k : Kind} (h : opAt L k = some op) : k.power = L := by
  have hlevel {f : Kind → Option BinaryOp} {n : Nat} (hf : f k = some op) (hn : ∀ k, f k = none ∨ k.power = n) :
      k.power = n := (hn k).resolve_left fun hnone => by rw [hnone] at hf; cases hf
  unfold opAt at h
  split at h
  · exact hlevel h fun k => by unfold logicalOrOp?; split <;> simp [Kind.power]
  · exact hlevel h fun k => by unfold logicalAndOp?; split <;> simp [Kind.power]
  · exact hlevel h fun k => by unfold bitwiseOrOp?; split <;> simp [Kind.power]
  · exact hlevel h fun k => by unfold bitwiseAndOp?; split <;> simp [Kind.power]
  · exact hlevel h fun k => by unfold equalityOp?; split <;> simp [Kind.power]
  · exact hlevel h fun k => by unfold relationalOp?; split <;> simp [Kind.power]
  · exact hlevel h fun k => by unfold shiftOp?; split <;> simp [Kind.power]
  · exact hlevel h fun k => by unfold additiveOp?; split <;> simp [Kind.power]
  · exact hlevel h fun k => by unfold multiplicativeOp?; split <;> simp [Kind.power]
  · cases h

theorem power_of_assignOp? {k : Kind} {op : AssignOp} (h : assignOp? k = some op) : k.power = 2 := by
  unfold assignOp? at h
  split at h <;> cases h <;> rfl

theorem power_of_updateOp? {k : Kind} {op : UpdateOp} (h : updateOp? k = some op) : k.power = 16 := by
  unfold updateOp? at h
  split at h <;> cases h <;> rfl

theorem opAt_mark (h : op ≠ .exponent) : op.precedence ∈ chainLevels ∧ opAt op.precedence op.mark.kind = some op := by
  cases op with
  | exponent => exact absurd rfl h
  | instanceOf => exact ⟨by decide, by decide +kernel⟩
  | _ => exact ⟨by decide, rfl⟩

end Grammar

/-! ## Stretches -/

theorem Parser.accept_eq (k : Kind) (c : Cursor) :
    (accept k : Parser Bool) c = if c.peek.kind = k then .ok true c.advance.2 else .ok false c := by
  show (if (c.peek.kind == k) = true then _ else _ : Parser Bool) c = _
  by_cases hk : c.peek.kind = k
  · rw [if_pos hk, if_pos (beq_iff_eq.mpr hk)]
    rfl
  · rw [if_neg hk, if_neg (by simpa using hk)]
    rfl

/-- The places where something begins and those where it ends, with the kind that comes next there and the number of
tokens that are left. -/
structure Stretch where
  start : Cursor → Prop
  stop : Cursor → Prop
  next : Kind
  size : Nat
  kind_stop : ∀ {c}, stop c → c.peek.kind = next
  size_stop : ∀ {c}, stop c → c.rest.length = size

namespace Stretch

variable {inner : Inner} {L : Nat} {s s' : Stretch} {R R' T : Expr → Prop}

/-- If what comes next binds more loosely than level `L`, its reader reads the stretch to a result with `R`. -/
def IsRead (s : Stretch) (inner : Inner) (L : Nat) (R : Expr → Prop) : Prop :=
  s.next.power < L → ∀ c, s.start c → Meets (parserAt inner L) c fun e c' => R e ∧ s.stop c'

/-- If what comes next binds no more tightly than level `L`, its reader goes on behind the stretch with operators of
that level. -/
def IsBegun (s : Stretch) (inner : Inner) (L : Nat) (R : Expr → Prop) : Prop :=
  s.next.power ≤ L → ∀ c Q, s.start c →
    (∀ (e : Expr) (budget : List Token) (c' : Cursor), R e → s.stop c' → s.size ≤ budget.length →
      Meets (manyWithin (chainItem (opAt L) (parserAt inner (L + 1))) budget) c' fun others c =>
        Q (others.foldl Expr.join e) c) →
    Meets (parserAt inner L) c Q

/-- One stretch behind another. -/
def join (s s' : Stretch) : Stretch := ⟨s.start, s'.stop, s'.next, s'.size, s'.kind_stop, s'.size_stop⟩

/-- What is read at the next level is the first operand of a level. -/
theorem IsRead.begun (h : s.IsRead inner (L + 1) R) (hL : L ∈ chainLevels) : s.IsBegun inner L R := by
  intro hp c Q hc hq
  rw [parserAt_chain hL]
  refine .bind ((h (Nat.lt_succ_of_le hp) c hc).mono fun e c he => .bind (.many ?_))
  exact (hq e c.rest c he.1 he.2 (Nat.le_of_eq (s.size_stop he.2).symm)).mono fun others c h => .pure h

/-- Before an operator that binds more loosely, the operands of a level end. -/
theorem IsBegun.read (h : s.IsBegun inner L R) : s.IsRead inner L R := by
  intro hp c hc
  refine h (Nat.le_of_lt hp) c _ hc fun e budget c he hc _ => .manyWithin_none ?_
  show Meets (match opAt L c.peek.kind with
    | none => pure none
    | some op => _) c _
  rw [s.kind_stop hc]
  split
  · exact ⟨rfl, he, hc⟩
  · rename_i op hop
    have := power_of_opAt hop
    omega

/-- One more operator and its right operand. -/
theorem IsBegun.operator (h : s.IsBegun inner op.precedence R) (hop : op ≠ .exponent) (hnext : s.next = op.mark.kind)
    (hstep : ∀ c, s.stop c → s'.start c.advance.2) (hsize : s'.size < s.size)
    (hr : s'.IsRead inner (op.precedence + 1) R')
    (hT : ∀ l r, R l → R' r → T (l.join (op, r))) :
    (s.join s').IsBegun inner op.precedence T := by
  intro hp c Q hc hq
  have hmark := (opAt_mark hop).2
  refine h (Nat.le_of_eq (hnext ▸ power_of_opAt hmark)) c Q hc fun e budget c he hc hb => ?_
  cases budget with
  | nil =>
    rw [List.length_nil] at hb
    omega
  | cons t budget =>
    rw [List.length_cons] at hb
    refine .manyWithin_some ?_
    show Meets (match opAt op.precedence c.peek.kind with
      | none => pure none
      | some op' => advance >>= fun _ => parserAt inner (op.precedence + 1) >>= fun e => pure (some (op', e))) c _
    rw [s.kind_stop hc, hnext, hmark]
    refine .bind (p := advance) ?_
    show Meets _ c.advance.2 _
    refine .bind ((hr (Nat.lt_succ_of_le hp) _ (hstep c hc)).mono fun e' c he' => .pure ⟨(op, e'), rfl, ?_⟩)
    exact hq (e.join (op, e')) budget c (hT e e' he he'.1) he'.2 (by show s'.size ≤ _; omega)

/-- A power. -/
theorem IsRead.power (h : s.IsRead inner 14 R) (hnext : s.next = .symbol .exponent)
    (hstep : ∀ c, s.stop c → s'.start c.advance.2)
    (hr : s'.next.power < 13 → ∀ c, s'.start c → Meets inner.exponent c fun e c' => R' e ∧ s'.stop c')
    (hT : ∀ l r, R l → R' r → T (l.join (.exponent, r))) : (s.join s').IsRead inner 13 T := by
  intro hp c hc
  refine .bind ((h (hnext ▸ by decide) c hc).mono fun e c he => .bind ?_)
  rw [Meets, accept_eq, if_pos ((s.kind_stop he.2).trans hnext)]
  show Meets (inner.exponent >>= fun e' => pure (e.join (.exponent, e'))) c.advance.2 _
  exact .bind ((hr hp _ (hstep c he.2)).mono fun e' c he' => .pure ⟨hT e e' he.1 he'.1, he'.2⟩)

/-- What is read at a level is read at the one below. -/
theorem IsRead.below (h : s.IsRead inner (L + 1) R) (hlow : 2 ≤ L) (hhigh : L < 14) : s.IsRead inner L R := by
  by_cases hchain : L ∈ chainLevels
  · exact (h.begun hchain).read
  have hL : L = 2 ∨ L = 6 ∨ L = 13 := by
    simp only [chainLevels, List.mem_cons, List.not_mem_nil, or_false] at hchain
    omega
  intro hp c hc
  have hread := h (Nat.lt_succ_of_lt hp) c hc
  rcases hL with rfl | rfl | rfl
  · refine .bind (hread.mono fun e c he => .kindAhead ?_)
    rw [s.kind_stop he.2]
    split
    · exact he
    · rename_i op hop
      have := power_of_assignOp? hop
      omega
  · exact hread
  · refine .bind (hread.mono fun e c he => .bind ?_)
    have hne : c.peek.kind ≠ .symbol .exponent := by
      intro hexp
      rw [← s.kind_stop he.2, hexp] at hp
      exact absurd hp (by decide)
    rw [Meets, accept_eq, if_neg hne]
    exact he

/-- What is read at a level is read at every lower one. -/
theorem IsRead.descend {L' : Nat} (h : s.IsRead inner L' R) (hlow : 2 ≤ L) (hle : L ≤ L') (hhigh : L' ≤ 14) :
    s.IsRead inner L R := by
  induction hle with
  | refl => exact h
  | step hle ih => exact ih (h.below (Nat.le_trans hlow hle) (by omega)) (by omega)

end Stretch

/-! ## Levels of marks -/

/-- The reader of level `L` reads the marks as `t`, before any kind that binds more loosely. -/
def IsAt (L : Nat) (ms : List Mark) (t : Expr) : Prop :=
  Opens Kind.opensExpr ms ∧ ∀ n, Reads (parserAt (level n) L) ms (·.power < L) (·.bare = t)

/-- Behind the marks, the reader of level `L` goes on with operators of that level. -/
def IsChain (L : Nat) (ms : List Mark) (t : Expr) : Prop :=
  Opens Kind.opensExpr ms ∧ ∀ n (c : Cursor) more Q, c.Fits (ms ++ more) → (kindOf more).power ≤ L →
    (∀ (e : Expr) (budget : List Token) (c' : Cursor), e.bare = t → c'.Fits more → more.length ≤ budget.length →
      Meets (manyWithin (chainItem (opAt L) (parserAt (level n) (L + 1))) budget) c' fun others c =>
        Q (others.foldl Expr.join e) c) →
    Meets (parserAt (level n) L) c Q

/-- The marks, and what comes next. -/
def markStretch (ms more : List Mark) : Stretch :=
  ⟨(·.Fits (ms ++ more)), (·.Fits more), kindOf more, more.length, Cursor.Fits.kind, Cursor.Fits.length⟩

section Levels

variable {L : Nat} {ms : List Mark} {t : Expr}

/-- One level further in, operands are read by the same readers. -/
theorem IsAt.unary (h : IsAt 14 ms t) (n : Nat) : Reads (level n).unary ms (·.power < 14) (·.bare = t) := by
  cases n with
  | zero => exact fun c more _ _ => .tooDeep
  | succ n => exact h.2 n

theorem IsAt.exponent (h : IsAt 13 ms t) (n : Nat) : Reads (level n).exponent ms (·.power < 13) (·.bare = t) := by
  cases n with
  | zero => exact fun c more _ _ => .tooDeep
  | succ n => exact h.2 n

theorem IsAt.isExpr (h : IsAt 2 ms t) : IsExpr ms t := by
  refine ⟨h.1, fun n => ?_⟩
  cases n with
  | zero => exact fun c more _ _ => .tooDeep
  | succ n => exact h.2 n

/-! ## Operators in front and behind -/

/-- Chains of calls and properties are operands. -/
theorem IsCall.isAt (h : IsCall ms t) : IsAt 14 ms t := by
  refine ⟨h.1.expr, fun n c more hc hf => ?_⟩
  obtain ⟨hunary, hupdate⟩ := Kind.not_operator_of_opensOperand (h.1.kindOf_append more)
  refine .bind (.position fun _ => .bind (.kind hc (.bind (.kind hc ?_))))
  simp only [hunary, hupdate]
  refine .bind ((h.reads n).meets hc (by omega) fun e c he hc => .bind (.kind hc ?_))
  split
  · exact .pure ⟨he, hc⟩
  · rename_i op hop
    have := power_of_updateOp? hop
    omega

theorem Expr.isAssignable_bare (e : Expr) : e.bare.isAssignable = e.isAssignable := by
  cases e <;> rfl

theorem meets_assignable {e : Expr} (he : e.bare = t) (ht : t.isAssignable = true) {c : Cursor}
    {Q : Unit → Cursor → Prop} (h : Q () c) : Meets (assignable e) c Q := by
  rw [← he, Expr.isAssignable_bare] at ht
  exact .ite_pos ht h

theorem UpdateOp.updateOp?_symbol (op : UpdateOp) : updateOp? (.symbol op.symbol) = some op := by
  cases op <;> rfl

/-- An operator behind its operand. -/
theorem IsCall.updateAfter (h : IsCall ms t) (ht : t.isAssignable = true) (op : UpdateOp) :
    IsAt 14 (ms ++ tighten [.symbol op.symbol]) (.update op false t default) := by
  refine ⟨h.1.expr.append _, fun n c more hc hf => ?_⟩
  rw [List.append_assoc] at hc
  obtain ⟨hunary, hupdate⟩ := Kind.not_operator_of_opensOperand
    (h.1.kindOf_append (tighten [.symbol op.symbol] ++ more))
  refine .bind (.position fun _ => .bind (.kind hc (.bind (.kind hc ?_))))
  simp only [hunary, hupdate]
  have hpower : (Kind.symbol op.symbol).power < 17 := by cases op <;> decide
  refine .bind ((h.reads n).meets hc hpower fun e c he hc => .bind (.kind hc ?_))
  have hop : updateOp? (kindOf (tighten [.symbol op.symbol] ++ more)) = some op := op.updateOp?_symbol
  simp only [hop]
  refine .bind (.onNewLine hc rfl (.bind (meets_assignable he ht (.bind ?_))))
  refine .advance hc fun _ c _ _ hc => .bind (.spanFrom fun _ => .pure ⟨?_, hc⟩)
  rw [← he]
  rfl

/-- An operator that steps its operand from the front. -/
theorem IsAt.updateBefore (h : IsAt 14 ms t) (ht : t.isAssignable = true) (op : UpdateOp) :
    IsAt 14 (.symbol op.symbol :: ms) (.update op true t default) := by
  have hopens : Kind.opensExpr (.symbol op.symbol) = true := by cases op <;> rfl
  refine ⟨.symbol hopens _, fun n c more hc hf => ?_⟩
  refine .bind (.position fun _ => .bind (.kind hc (.bind (.kind hc ?_))))
  have hop : updateOp? (kindOf (.symbol op.symbol :: ms ++ more)) = some op := op.updateOp?_symbol
  simp only [hop]
  refine .bind (.advance hc fun _ c _ _ hc => .bind ((h.unary n).meets hc hf fun e c he hc => ?_))
  refine .bind (meets_assignable he ht (.bind (.spanFrom fun _ => .pure ⟨?_, hc⟩)))
  rw [← he]
  rfl

theorem UnaryOp.unaryOp?_mark (op : UnaryOp) : unaryOp? op.mark.kind = some op ∧ updateOp? op.mark.kind = none := by
  cases op with
  | typeOf => decide +kernel
  | _ => exact ⟨rfl, rfl⟩

/-- An operator in front of its operand. -/
theorem IsAt.unaryOp (h : IsAt 14 ms t) (op : UnaryOp) : IsAt 14 (op.mark :: ms) (.unary op t default) := by
  obtain ⟨hunary, hupdate⟩ := op.unaryOp?_mark
  have hopens : Opens Kind.opensExpr (op.mark :: ms) := by
    refine ⟨_, _, rfl, by simp [Kind.opensExpr, hunary], fun hk => ?_, fun hk => ?_⟩
    · rw [hk] at hunary
      cases hunary
    · rw [hk] at hunary
      cases hunary
  refine ⟨hopens, fun n c more hc hf => ?_⟩
  refine .bind (.position fun _ => .bind (.kind hc (.bind (.kind hc ?_))))
  have hops : unaryOp? (kindOf (op.mark :: ms ++ more)) = some op ∧ updateOp? (kindOf (op.mark :: ms ++ more)) = none :=
    ⟨hunary, hupdate⟩
  simp only [hops.1, hops.2]
  refine .bind (.advance hc fun _ c _ _ hc => .bind ((h.unary n).meets hc hf fun e c he hc => ?_))
  refine .bind (.spanFrom fun _ => .pure ⟨?_, hc⟩)
  rw [← he]
  rfl

/-! ## Operators between operands -/

theorem Expr.bare_join (left right : Expr) (op : BinaryOp) :
    (left.join (op, right)).bare = .binary op left.bare right.bare default := rfl

theorem isAt_iff : IsAt L ms t ↔
    Opens Kind.opensExpr ms ∧ ∀ n more, (markStretch ms more).IsRead (level n) L (·.bare = t) :=
  ⟨fun h => ⟨h.1, fun n more hp c hc => h.2 n c more hc hp⟩, fun h => ⟨h.1, fun n c more hc hp => h.2 n more hp c hc⟩⟩

theorem isChain_iff : IsChain L ms t ↔
    Opens Kind.opensExpr ms ∧ ∀ n more, (markStretch ms more).IsBegun (level n) L (·.bare = t) :=
  ⟨fun h => ⟨h.1, fun n more hp c Q hc => h.2 n c more Q hc hp⟩,
    fun h => ⟨h.1, fun n c more Q hc hp => h.2 n more hp c Q hc⟩⟩

/-- The marks of two operands with an operator between them. -/
theorem markStretch_operator (ms rs more : List Mark) (m : Mark) : markStretch (ms ++ m :: rs) more =
    (markStretch ms (m :: (rs ++ more))).join (markStretch rs more) := by
  simp only [markStretch, Stretch.join, List.append_assoc, List.cons_append]

theorem Cursor.Fits.advance {c : Cursor} {m : Mark} (h : c.Fits (m :: ms)) : c.advance.2.Fits ms := by
  obtain ⟨previous, rest⟩ := c
  obtain ⟨u, us, hrest, -, hfits⟩ := h.exists_cons
  simp only at hrest
  subst hrest
  exact hfits

/-- A power. -/
theorem IsAt.power {rs : List Mark} {r : Expr} (h : IsAt 14 ms t) (hr : IsAt 13 rs r) :
    IsAt 13 (ms ++ .symbol .exponent :: rs) (.binary .exponent t r default) := by
  refine isAt_iff.mpr ⟨h.1.append _, fun n more => ?_⟩
  rw [markStretch_operator]
  refine ((isAt_iff.mp h).2 n _).power rfl (fun c hc => hc.advance) (fun hp c hc => hr.exponent n c more hc hp) ?_
  intro left right hleft hright
  rw [Expr.bare_join, hleft, hright]

/-- What is read at the next level is the first operand of a level. -/
theorem IsAt.isChain (h : IsAt (L + 1) ms t) (hL : L ∈ chainLevels) : IsChain L ms t :=
  isChain_iff.mpr ⟨h.1, fun n more => ((isAt_iff.mp h).2 n more).begun hL⟩

/-- Before an operator that binds more loosely, the operands of a level end. -/
theorem IsChain.isAt (h : IsChain L ms t) : IsAt L ms t :=
  isAt_iff.mpr ⟨h.1, fun n more => ((isChain_iff.mp h).2 n more).read⟩

/-- One more operator and its right operand. -/
theorem IsChain.operator (h : IsChain op.precedence ms t) (hop : op ≠ .exponent) {rs : List Mark} {r : Expr}
    (hr : IsAt (op.precedence + 1) rs r) :
    IsChain op.precedence (ms ++ op.mark :: rs) (.binary op t r default) := by
  refine isChain_iff.mpr ⟨h.1.append _, fun n more => ?_⟩
  rw [markStretch_operator]
  have hsize : more.length < (op.mark :: (rs ++ more)).length := by
    rw [List.length_cons, List.length_append]
    omega
  refine ((isChain_iff.mp h).2 n _).operator hop rfl (fun c hc => hc.advance) hsize ((isAt_iff.mp hr).2 n more) ?_
  intro left right hleft hright
  rw [Expr.bare_join, hleft, hright]

/-- An assignment. -/
theorem IsAt.assign (h : IsAt 3 ms t) (ht : t.isAssignable = true) (op : AssignOp) {vs : List Mark} {v : Expr}
    (hv : IsExpr vs v) : IsAt 2 (ms ++ .symbol op.symbol :: vs) (.assign op t v default) := by
  refine ⟨h.1.append _, fun n c more hc hf => ?_⟩
  rw [List.append_assoc] at hc
  have hop : assignOp? (.symbol op.symbol) = some op := by cases op <;> rfl
  have hpower : (Kind.symbol op.symbol).power < 3 := by cases op <;> decide
  refine .bind ((h.2 n).meets hc hpower fun e c he hc => .bind (.kind hc ?_))
  have hop' : assignOp? (kindOf (.symbol op.symbol :: vs ++ more)) = some op := hop
  simp only [hop']
  refine .bind (meets_assignable he ht (.bind (.advance hc fun _ c _ _ hc => .bind ?_)))
  refine (hv.2 n).meets hc hf fun e' c he' hc => .pure ⟨?_, hc⟩
  rw [← he, ← he']
  rfl

/-! ## Lower levels -/

/-- What is read at a level is read at every lower one. -/
theorem IsAt.descend {L' : Nat} (h : IsAt L' ms t) (hlow : 2 ≤ L) (hle : L ≤ L') (hhigh : L' ≤ 14) : IsAt L ms t :=
  isAt_iff.mpr ⟨h.1, fun n more => ((isAt_iff.mp h).2 n more).descend hlow hle hhigh⟩

end Levels

end Vernacular
