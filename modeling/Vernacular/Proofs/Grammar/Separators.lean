import Vernacular.Proofs.Grammar.Undisturbed

/-!
# Extra separators change nothing

Semicolons that are put in where a list of statements or members begins or ends or between two of its items leave a
program as it is. Where that is, the tree tells that is read from the numbered tokens (`Program.Seam`).

- `topStatement`: a program is a list of statements too, which ends with the tokens;
- `Loose.interspersed`: semicolons in front of those that stand at a seam already are as good as some behind them;
- `parse_interspersed`: the program is the same but for places.
-/

namespace Vernacular

open Grammar Vernacular.Parser

variable {J : Nat → Prop} {inner : Inner}

/-! ## Programs -/

namespace Grammar

/-- A statement of a program, where no bracket may be left over. -/
def topStatement (inner : Inner) : Parser Stmt := do
  if (← check (.symbol .rightBrace)) || (← check (.symbol .rightParen)) then fail ["statement"] .topLevel
  inner.statement

instance [inner.Reads] : Progress (topStatement inner) := by
  unfold topStatement
  infer_instance

theorem programItem_eq : programItem inner = gapped (· == .eof) (topStatement inner) := by
  funext c
  have hround (p q : Parser (Option Stmt)) (hpq : p c = q c) :
      (if (c.peek.kind == .eof) = true then pure none else p : Parser (Option Stmt)) c =
        (if (c.peek.kind == .eof) = true then pure none else q : Parser (Option Stmt)) c := by
    split
    · rfl
    · exact hpq
  refine hround _ _ ?_
  show (if (c.peek.kind == .symbol .rightBrace || c.peek.kind == .symbol .rightParen) = true then
      fail ["statement"] .topLevel >>= fun _ => inner.statement >>= fun s => skipSemicolons >>= fun _ => pure (some s)
    else inner.statement >>= fun s => skipSemicolons >>= fun _ => pure (some s) : Parser (Option Stmt)) c =
      EStateM.bind _ _ c
  unfold EStateM.bind
  rw [show topStatement inner c =
    (if (c.peek.kind == .symbol .rightBrace || c.peek.kind == .symbol .rightParen) = true then
      fail ["statement"] .topLevel >>= fun _ => inner.statement else inner.statement : Parser Stmt) c from rfl]
  split <;> rfl

/-- A program is a list of statements, with semicolons in front of it. -/
theorem statements_iff [inner.Reads] {q : Program} {c d : Cursor} : statements inner c = .ok q d ↔
    ∃ body, Listed (· == .eof) (topStatement inner) c.pastSemicolons body d ∧ q = ⟨body, d.spanFrom c.peek.start⟩ := by
  have hrun : statements inner c =
      (skipSemicolons >>= fun _ => many (gapped (· == .eof) (topStatement inner)) >>= fun body =>
      spanFrom c.peek.start >>= fun s => pure ⟨body, s⟩ : Parser Program) c := by
    rw [← programItem_eq]
    rfl
  rw [hrun, bind_ok (skipSemicolons_run c)]
  constructor
  · intro h
    obtain ⟨body, e, hbody, h⟩ := ok_of_bind h
    cases h
    exact ⟨body, many_gapped_iff.mp hbody, rfl⟩
  · rintro ⟨body, hbody, rfl⟩
    exact bind_ok (many_gapped_iff.mpr hbody) _

theorem beginsNext_topStatement (h : inner.Follows J) : BeginsNext (topStatement inner) fun s => s.span.start := by
  intro c s d hs
  have hrun : topStatement inner c =
      (if (c.peek.kind == .symbol .rightBrace || c.peek.kind == .symbol .rightParen) = true then
        fail ["statement"] .topLevel >>= fun _ => inner.statement else inner.statement : Parser Stmt) c := rfl
  rw [hrun] at hs
  split at hs
  · cases hs
  · exact h.start c s d hs

theorem follows_topStatement (h : inner.Follows J) : Follows J .none [] (topStatement inner) (topStatement inner)
    (Like (Stmt.view .placeless)) Stmt.seams := by
  have := h.reads
  refine .of_progress inferInstance (.check fun b => .check fun d => .ite ?_ h.statement.free)
  exact (Follows.fail (T := fun _ _ => True) (H := fun _ => [])).skip fun _ _ _ => h.statement.free

/-- A program is read alike among extra semicolons at its seams. -/
theorem statements_follows (h : inner.Follows J) {us us' : List Token} {q : Program} {d : Cursor} (hus : Numbered us)
    (hloose : Loose J us us') (hq : statements inner (.ofTokens us) = .ok q d) (hJ : ∀ k, J k → k ∈ q.seams) :
    ∃ q' d', statements inner (.ofTokens us') = .ok q' d' ∧ Like (Program.view .placeless) q q' := by
  have := h.reads
  have hitem := follows_topStatement h
  obtain ⟨body, hbody, rfl⟩ := statements_iff.mp hq
  have hstart : Near J (.ofTokens us) (.ofTokens us') := ⟨⟨hus, nofun⟩, hloose, .inl .none⟩
  obtain ⟨hc, hs⟩ := hstart.pastSemicolons
  obtain ⟨ws, hover⟩ := (Cursor.ofTokens us).exists_over_pastSemicolons
  obtain ⟨vs, hover'⟩ := hbody.exists_over hitem
  have hlast := hstart.placed.stop (hover.trans hover')
  obtain ⟨body', d', hbody', hlike, -⟩ := hbody.follows hitem (G := fun s => s.span.start.offset)
    (fun c s d hs => congrArg Position.offset (beginsNext_topStatement h c s d hs)) hc hs fun k hj hk _ => by
      have hmem := hJ k hj
      rw [Program.seams, stmtsSeams_eq, List.mem_append, List.mem_singleton, hlast] at hmem
      exact hmem.resolve_right (Nat.ne_of_gt hk)
  refine ⟨_, d', statements_iff.mpr ⟨body', hbody', rfl⟩, ?_⟩
  rw [Like, Program.view, Program.view, stmtsView_eq, stmtsView_eq, hlike]
  rfl

end Grammar

/-! ## Places for separators -/

/-- The tokens with `extra n` put in at the place that has `n` of them behind it. -/
def interspersed (extra : Nat → List Token) : List Token → List Token
  | [] => extra 0
  | t :: ts => extra (ts.length + 1) ++ t :: interspersed extra ts

/-- A place where the program that was read from the numbered tokens `ts` takes separators: where an item of a list
begins or the list ends, or in front of a semicolon that stands at such a place. -/
inductive Program.Seam (q : Program) (ts : List Token) : Nat → Prop
  | item {n : Nat} : n ∈ q.seams → Seam q ts n
  | before {t : Token} {us : List Token} : t :: us <:+ ts → t.kind = .symbol .semicolon → Seam q ts us.length →
      Seam q ts (us.length + 1)

section Seam

variable {q : Program} {ts us xs : List Token} {extra : Nat → List Token}

/-- A semicolon in front of others is one of them, and the last of them has been put in. -/
theorem Loose.semicolon {s : Token} {n : Nat} (hn : q.Seam ts n) (hus : us <:+ ts) (hlength : us.length = n)
    (hs : s.kind = .symbol .semicolon) (h : Loose (· ∈ q.seams) (numbered us) xs) :
    Loose (· ∈ q.seams) (numbered us) (s :: xs) := by
  induction hn generalizing us xs s with
  | item hn => exact .insert (by rwa [length_numbered, hlength]) hs h
  | @before t vs hvs ht _ ih =>
    obtain rfl : us = t :: vs :=
      (List.suffix_of_suffix_length_le hus hvs (Nat.le_of_eq hlength)).eq_of_length hlength
    cases h with
    | insert hj hs' h => exact .insert hj hs (.insert hj hs' h)
    | @keep _ t' _ xs ht' h =>
      have hkind : t'.kind = .symbol .semicolon := ht'.kind.symm.trans ht
      refine .keep ⟨ht.trans hs.symm, fun hk => absurd ht hk⟩ (ih ((List.suffix_cons t vs).trans hvs) rfl hkind h)

theorem Loose.semicolons {ss : List Token} (hss : ∀ s ∈ ss, s.kind = .symbol .semicolon ∧ q.Seam ts us.length)
    (hus : us <:+ ts) (h : Loose (· ∈ q.seams) (numbered us) xs) : Loose (· ∈ q.seams) (numbered us) (ss ++ xs) := by
  induction ss with
  | nil => exact h
  | cons s ss ih =>
    obtain ⟨⟨hs, hseam⟩, hss⟩ := List.forall_mem_cons.mp hss
    exact .semicolon hseam hus rfl hs (ih hss)

/-- Semicolons that have been put in at seams may be taken for others, which stand where items begin and lists end. -/
theorem Loose.interspersed (h : ∀ n, ∀ s ∈ extra n, s.kind = .symbol .semicolon ∧ q.Seam ts n) (hus : us <:+ ts) :
    Loose (· ∈ q.seams) (numbered us) (interspersed extra us) := by
  induction us with
  | nil =>
    have := Loose.semicolons (h 0) hus .nil
    rwa [List.append_nil] at this
  | cons u us ih =>
    refine .semicolons (h _) hus (.keep ⟨rfl, fun _ => ⟨rfl, rfl, rfl⟩⟩ ?_)
    exact ih ((List.suffix_cons u us).trans hus)

end Seam

/-- A program stays the same, but for places, if any number of semicolons is put in wherever its statements, the
statements of its blocks and the members of its classes take separators. -/
theorem parse_interspersed {ts : List Token} {p : Program} (h : parse ts = .ok p) :
    ∃ q, parse (numbered ts) = .ok q ∧ q.bare = p.bare ∧
      ∀ extra : Nat → List Token, (∀ n, ∀ s ∈ extra n, s.kind = .symbol .semicolon ∧ q.Seam ts n) →
        ∃ p', parse (interspersed extra ts) = .ok p' ∧ p'.bare = p.bare := by
  obtain ⟨q, hq, hlike⟩ := parse_numbered h
  have hbare : q.bare = p.bare := by
    rw [← Program.view_placeless, ← Program.view_placeless, hlike]
  refine ⟨q, hq, hbare, fun extra hextra => ?_⟩
  obtain ⟨d, hd⟩ := parse_eq_ok_iff.mp hq
  obtain ⟨q', d', hq', hlike'⟩ := statements_follows (.level _ maxDepth) (numbered_numbered ts)
    (.interspersed hextra List.suffix_rfl) hd fun _ => id
  refine ⟨q', parse_eq_ok_iff.mpr ⟨d', hq'⟩, ?_⟩
  rw [← hbare, ← Program.view_placeless, ← Program.view_placeless, hlike']

/-- Two semicolons more before and behind both members of a class, before a semicolon between them, around a return in a
method and around a branch without braces. -/
theorem parse_interspersed_members : ∃ ts p,
    tokenize "classe A { n = 1; f() { retorne } } se (a) b" = .ok ts ∧ parse ts = .ok p ∧
    ∃ p', parse (interspersed (fun n => if n ∈ [14, 20, 17, 13, 9, 8, 7, 6, 1]
      then List.replicate 2 ⟨.symbol .semicolon, ";", .start, .start⟩ else []) ts) = .ok p' ∧ p'.bare = p.bare := by
  have hcheck : ((tokenize "classe A { n = 1; f() { retorne } } se (a) b").toOption.any fun ts =>
      (parse ts).toOption.any fun _ => ts.length = 20 ∧ ts[6]?.map Token.kind = some (.symbol .semicolon) ∧
        (parse (numbered ts)).toOption.map Program.seams = some [20, 17, 13, 9, 8, 7, 6, 1]) = true := by decide +kernel
  obtain ⟨ts, hts, hcheck⟩ := exists_ok_of_any hcheck
  obtain ⟨p, hp, hcheck⟩ := exists_ok_of_any hcheck
  obtain ⟨hlength, hsemi, hseams⟩ := of_decide_eq_true hcheck
  obtain ⟨q, hq, -, hextra⟩ := parse_interspersed hp
  rw [hq] at hseams
  have hseams : q.seams = [20, 17, 13, 9, 8, 7, 6, 1] := Option.some.inj hseams
  obtain ⟨t, ht, hkind⟩ := Option.map_eq_some_iff.mp hsemi
  obtain ⟨hlt, rfl⟩ := List.getElem?_eq_some_iff.mp ht
  have hbefore : q.Seam ts 14 := by
    have hdrop : (ts.drop 7).length = 13 := by rw [List.length_drop, hlength]
    have hplace := Program.Seam.before (q := q) (List.drop_eq_getElem_cons hlt ▸ List.drop_suffix 6 ts) hkind
      (.item (by rw [hdrop, hseams]; decide))
    rwa [hdrop] at hplace
  refine ⟨ts, p, hts, hp, hextra _ fun n s hs => ?_⟩
  split at hs
  · rename_i hn
    obtain ⟨-, rfl⟩ := List.mem_replicate.mp hs
    rw [List.mem_cons, ← hseams] at hn
    refine ⟨rfl, hn.elim (fun hn => hn ▸ hbefore) .item⟩
  · cases hs

end Vernacular
