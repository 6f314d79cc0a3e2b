import Vernacular.Proofs.Grammar.Loosened

/-!
# Lists with semicolons between their items

The statements of a program or a block and the members of a class are read in rounds: an item, and then all the
semicolons that come (`gapped`). So extra semicolons may have been put in wherever such a list begins or ends and
between its items, and both runs see the same again behind them (`Near.pastSemicolons`). The places are those where
items begin and where the list ends.

- `Listed`: the rounds of a list;
- `Listed.follows`: a list among extra semicolons;
- `Follows.enclosed`: a list in braces.
-/

namespace Vernacular

open Grammar Vernacular.Parser

variable {α β γ : Type} {J : Nat → Prop}

/-! ## Semicolons -/

/-- The place behind the semicolons that come first, with the token before it. -/
def pastSemicolonsFrom : Option Token → List Token → Cursor
  | previous, [] => ⟨previous, []⟩
  | previous, t :: ts => if t.kind = .symbol .semicolon then pastSemicolonsFrom (some t) ts else ⟨previous, t :: ts⟩

/-- The place behind the semicolons that come next. -/
def Cursor.pastSemicolons (c : Cursor) : Cursor := pastSemicolonsFrom c.previous c.rest

/-- One semicolon, if one comes. -/
def semicolonItem : Parser (Option Unit) := do
  if ← accept (.symbol .semicolon) then return some () else return none

instance : Moving semicolonItem := by
  unfold semicolonItem
  infer_instance

theorem semicolonItem_run (c : Cursor) :
    semicolonItem c = if c.peek.kind = .symbol .semicolon then .ok (some ()) c.advance.2 else .ok none c := by
  unfold semicolonItem
  split
  · exact bind_ok ((accept_run _ c).trans (if_pos ‹_›)) _
  · exact bind_ok ((accept_run _ c).trans (if_neg ‹_›)) _

theorem many_semicolonItem (previous : Option Token) (ts : List Token) :
    ∃ us, many semicolonItem ⟨previous, ts⟩ = .ok us (pastSemicolonsFrom previous ts) := by
  have hstop (c : Cursor) (hk : c.peek.kind ≠ .symbol .semicolon) : many semicolonItem c = .ok [] c := by
    rw [many_step, bind_ok ((semicolonItem_run c).trans (if_neg hk))]
    rfl
  induction ts generalizing previous with
  | nil => exact ⟨[], hstop _ nofun⟩
  | cons t ts ih =>
    by_cases hk : t.kind = .symbol .semicolon
    · obtain ⟨us, hus⟩ := ih (some t)
      refine ⟨() :: us, ?_⟩
      rw [many_step, bind_ok ((semicolonItem_run ⟨previous, t :: ts⟩).trans (if_pos hk)), pastSemicolonsFrom, if_pos hk]
      exact bind_ok hus _
    · exact ⟨[], by rw [pastSemicolonsFrom, if_neg hk]; exact hstop _ hk⟩

/-- Semicolons are read without fail. -/
theorem skipSemicolons_run (c : Cursor) : (skipSemicolons : Parser Unit) c = .ok () c.pastSemicolons := by
  obtain ⟨us, hus⟩ := many_semicolonItem c.previous c.rest
  exact bind_ok hus _

namespace Cursor

theorem exists_over_pastSemicolons (c : Cursor) : ∃ us, c.Over us c.pastSemicolons := by
  obtain ⟨previous, ts⟩ := c
  show ∃ us, Over _ us (pastSemicolonsFrom previous ts)
  induction ts generalizing previous with
  | nil => exact ⟨[], .refl _⟩
  | cons t ts ih =>
    rw [pastSemicolonsFrom]
    split
    · obtain ⟨us, hus⟩ := ih (some t)
      exact ⟨[t] ++ us, Over.trans ⟨rfl, rfl⟩ hus⟩
    · exact ⟨[], .refl _⟩

end Cursor

/-- Behind the semicolons both runs see the same. -/
theorem Near.pastSemicolons {c c' : Cursor} (h : Near J c c') :
    Near J c.pastSemicolons c'.pastSemicolons ∧ Synced J c.pastSemicolons.rest c'.pastSemicolons.rest := by
  obtain ⟨previous, ts⟩ := c
  obtain ⟨previous', ts'⟩ := c'
  obtain ⟨hplaced, hloose, hprevious⟩ := h
  show Near J (pastSemicolonsFrom previous ts) (pastSemicolonsFrom previous' ts') ∧
    Synced J (pastSemicolonsFrom previous ts).rest (pastSemicolonsFrom previous' ts').rest
  dsimp only at hloose hprevious
  induction hloose generalizing previous previous' with
  | nil => exact ⟨⟨hplaced, .nil, hprevious⟩, .nil⟩
  | @keep t t' ts ts' ht hts ih =>
    rw [pastSemicolonsFrom, pastSemicolonsFrom, ← ht.kind]
    split
    · have hover : Cursor.Over ⟨previous, t :: ts⟩ [t] ⟨some t, ts⟩ := ⟨rfl, rfl⟩
      exact ih (some t) (some t') (hplaced.onward hover) (.inl (.some ht))
    · exact ⟨⟨hplaced, .keep ht hts, hprevious⟩, .cons ht hts⟩
  | @insert s ts ts' hj hs hts ih =>
    have hpast : pastSemicolonsFrom previous' (s :: ts') = pastSemicolonsFrom (some s) ts' := by
      rw [pastSemicolonsFrom, if_pos hs]
    rw [hpast]
    exact ih previous (some s) hplaced (.inr ⟨s, rfl, hs⟩)

/-! ## Rounds -/

/-- A round of a list: an item and the semicolons behind it, unless the list has come to its end. -/
def gapped (ends : Kind → Bool) (item : Parser α) : Parser (Option α) := do
  if ends (← kind) then return none
  let a ← item
  skipSemicolons
  return some a

instance {ends : Kind → Bool} {item : Parser α} [Progress item] : Moving (gapped ends item) := by
  unfold gapped
  infer_instance

/-- From the place `c`, past the items `as` and the semicolons behind each, one comes to the place `d`, where the list
ends. -/
inductive Listed (ends : Kind → Bool) (item : Parser α) : Cursor → List α → Cursor → Prop
  | nil {c : Cursor} : ends c.peek.kind = true → Listed ends item c [] c
  | cons {c m d : Cursor} {a : α} {as : List α} : ends c.peek.kind = false → item c = .ok a m →
      Listed ends item m.pastSemicolons as d → Listed ends item c (a :: as) d

section Listed

variable {ends : Kind → Bool} {item item' : Parser α} {c d : Cursor} {as : List α}

theorem gapped_of_ends (h : ends c.peek.kind = true) : gapped ends item c = .ok none c := by
  show (if ends c.peek.kind = true then _ else _ : Parser (Option α)) c = _
  rw [if_pos h]
  rfl

theorem gapped_of_not_ends (h : ends c.peek.kind = false) :
    gapped ends item c = (item >>= fun a => skipSemicolons >>= fun _ => pure (some a)) c := by
  show (if ends c.peek.kind = true then _ else _ : Parser (Option α)) c = _
  rw [if_neg (by rw [h]; nofun)]

/-- A loop ends at once, or there is an item and the loop goes on behind it. -/
theorem many_gapped_cases [Progress item] (h : many (gapped ends item) c = .ok as d) :
    ends c.peek.kind = true ∧ as = [] ∧ d = c ∨ ends c.peek.kind = false ∧ ∃ a m as', as = a :: as' ∧ item c = .ok a m ∧
      many (gapped ends item) m.pastSemicolons = .ok as' d := by
  rw [many_step] at h
  obtain ⟨o, n, ho, h⟩ := ok_of_bind h
  cases hends : ends c.peek.kind with
  | true =>
    rw [gapped_of_ends hends] at ho
    cases ho
    cases h
    exact .inl ⟨rfl, rfl, rfl⟩
  | false =>
    rw [gapped_of_not_ends hends] at ho
    obtain ⟨a, m, ha, ho⟩ := ok_of_bind ho
    rw [bind_ok (skipSemicolons_run m)] at ho
    cases ho
    obtain ⟨as', d', has, h⟩ := ok_of_bind h
    cases h
    exact .inr ⟨rfl, a, m, as', rfl, ha, has⟩

/-- The rounds of a loop are those of a list. -/
theorem many_gapped_iff [Progress item] : many (gapped ends item) c = .ok as d ↔ Listed ends item c as d := by
  constructor
  · intro h
    induction as generalizing c with
    | nil =>
      rcases many_gapped_cases h with ⟨hends, -, rfl⟩ | ⟨-, _, _, _, has, -⟩
      · exact .nil hends
      · cases has
    | cons a as ih =>
      rcases many_gapped_cases h with ⟨-, has, -⟩ | ⟨hends, a', m, as', has, ha, h⟩
      · cases has
      · cases has
        exact .cons hends ha (ih h)
  · intro h
    induction h with
    | nil hends =>
      rw [many_step, bind_ok (gapped_of_ends hends)]
      rfl
    | @cons c m d a as hends ha _ ih =>
      have hround : gapped ends item c = .ok (some a) m.pastSemicolons := by
        rw [gapped_of_not_ends hends, bind_ok ha, bind_ok (skipSemicolons_run m)]
        rfl
      rw [many_step, bind_ok hround]
      exact bind_ok ih _

namespace Listed

variable {f : α → γ} {G : α → Nat} {F : α → List Nat} (hitem : Follows J .none [] item item' (Like f) F)

include hitem

theorem exists_over (h : Listed ends item c as d) : ∃ us, c.Over us d := by
  induction h with
  | nil => exact ⟨[], .refl _⟩
  | @cons c m d a as _ ha _ ih =>
    obtain ⟨us, hus⟩ := (hitem c).onward a m ha
    obtain ⟨vs, hvs⟩ := m.exists_over_pastSemicolons
    obtain ⟨ws, hws⟩ := ih
    exact ⟨us ++ (vs ++ ws), hus.trans (hvs.trans hws)⟩

variable [hp : Progress item] (hstart : ∀ c a d, item c = .ok a d → G a = c.peek.start.offset)

include hstart

/-- The places that a list names lie between its ends; the first item may begin where the list does. -/
theorem within (h : Listed ends item c as d) (hc : c.Placed) :
    ∀ k ∈ as.flatMap fun a => G a :: F a, d.rest.length < k ∧ k ≤ c.rest.length := by
  induction h with
  | nil => simp
  | @cons c m d a as _ ha hrest ih =>
    obtain ⟨us, hus⟩ := (hitem c).onward a m ha
    obtain ⟨vs, hvs⟩ := m.exists_over_pastSemicolons
    obtain ⟨ws, hws⟩ := hrest.exists_over hitem
    have hlt := hp.lt c a m ha
    have hle := hvs.le
    have hle' := hws.le
    intro k hk
    rw [List.flatMap_cons, List.mem_append, List.mem_cons] at hk
    rcases hk with (rfl | hk) | hk
    · rw [hstart c a m ha, hc.start (List.length_pos_iff.mp (by omega))]
      omega
    · have := ((hitem c).within a m hc ha k hk).resolve_left List.not_mem_nil
      omega
    · have := ih ((hc.onward hus).onward hvs) k hk
      omega

/-- A list is read alike among extra semicolons at the places that it names. -/
theorem follows {c' : Cursor} (h : Listed ends item c as d) (hc : Near J c c') (hs : Synced J c.rest c'.rest)
    (hJ : ∀ k, J k → d.rest.length < k → k ≤ c.rest.length → k ∈ as.flatMap fun a => G a :: F a) :
    ∃ as' d', Listed ends item' c' as' d' ∧ Like (List.map f) as as' ∧ Near J d d' ∧ Synced J d.rest d'.rest := by
  induction h generalizing c' with
  | nil hends => exact ⟨[], c', .nil ((Near.peek hs).kind ▸ hends), rfl, hc, hs⟩
  | @cons c m d a as hends ha hrest ih =>
    obtain ⟨us, hus⟩ := (hitem c).onward a m ha
    obtain ⟨vs, hvs⟩ := m.exists_over_pastSemicolons
    obtain ⟨ws, hws⟩ := hrest.exists_over hitem
    have hlt := hp.lt c a m ha
    have hle := hvs.le
    have hle' := hws.le
    have hG : G a = c.rest.length := by
      rw [hstart c a m ha, hc.placed.start (List.length_pos_iff.mp (by omega))]
    have hF {k : Nat} (hk : k ∈ F a) : m.rest.length < k :=
      (((hitem c).within a m hc.placed ha k hk).resolve_left List.not_mem_nil).1
    -- a place is named by the item if it is inside of it, and else by those that follow
    have hmem {k : Nat} (hj : J k) (hd : d.rest.length < k) (hk : k < c.rest.length) :
        k ∈ F a ∨ k ∈ as.flatMap fun a => G a :: F a := by
      have hmem := hJ k hj hd (Nat.le_of_lt hk)
      rw [List.flatMap_cons, List.mem_append, List.mem_cons] at hmem
      rcases hmem with (hmem | hmem) | hmem
      · omega
      · exact .inl hmem
      · exact .inr hmem
    obtain ⟨a', m', ha', hlike, hm, -⟩ := (hitem c).run c' a m hc ha (fun _ => hs) nofun fun k hj hk hk' => by
      refine (hmem hj (by omega) hk').resolve_right fun hmem => ?_
      have := hrest.within hitem hstart ((hc.placed.onward hus).onward hvs) k hmem
      omega
    obtain ⟨hn, hsn⟩ := hm.pastSemicolons
    obtain ⟨as', d', hlisted, hlikes, hd⟩ := ih hn hsn fun k hj hd hk =>
      (hmem hj hd (by omega)).resolve_left fun hmem => absurd (hF hmem) (by omega)
    exact ⟨a' :: as', d', .cons ((Near.peek hs).kind ▸ hends) ha' hlisted, hlike.cons hlikes, hd⟩

end Listed

end Listed

/-! ## Lists in braces -/

/-- The kinds of tokens at which a list in braces ends. -/
def closes (k : Kind) : Bool := k == .symbol .rightBrace || k == .eof

theorem separated_eq (item : Parser α) : separated item = (do skipSemicolons; many (gapped closes item)) := by
  have hround : separatedItem item = gapped closes item := rfl
  show (skipSemicolons >>= fun _ => many (separatedItem item)) = _
  rw [hround]

theorem expectSymbol_iff {s : Symbol} {context : Context} {t : Token} {c d : Cursor} :
    (expectSymbol s context : Parser Token) c = .ok t d ↔ c.peek.kind = .symbol s ∧ t = c.peek ∧ d = c.advance.2 := by
  have hrun : (expectSymbol s context : Parser Token) c =
      (if [Kind.symbol s].contains c.peek.kind = true then advance else fail [(Kind.symbol s).text] context :
        Parser Token) c := rfl
  by_cases hk : c.peek.kind = .symbol s
  · rw [hrun, if_pos (by simp [hk]), advance_run, EStateM.Result.ok.injEq]
    exact ⟨fun h => ⟨hk, h.1.symm, h.2.symm⟩, fun h => ⟨h.2.1.symm, h.2.2.symm⟩⟩
  · rw [hrun, if_neg (by simpa using hk)]
    exact ⟨nofun, fun h => absurd h.1 hk⟩

/-- Reads a list in braces. -/
def enclosed (context context' : Context) (item : Parser α) (start : Position) (node : List α → Span → β) :
    Parser β := do
  let _ ← expectSymbol .leftBrace context
  let as ← separated item
  let _ ← expectSymbol .rightBrace context'
  return node as (← spanFrom start)

section Enclosed

variable {context context' : Context} {item item' : Parser α} {start start' : Position} {node node' : List α → Span → β}

instance [Forward item] : Progress (enclosed context context' item start node) := by
  unfold enclosed
  infer_instance

theorem enclosed_iff [Progress item] {b : β} {c d : Cursor} : enclosed context context' item start node c = .ok b d ↔
    c.peek.kind = .symbol .leftBrace ∧ ∃ as e, Listed closes item c.advance.2.pastSemicolons as e ∧
      e.peek.kind = .symbol .rightBrace ∧ d = e.advance.2 ∧ b = node as (d.spanFrom start) := by
  constructor
  · intro h
    obtain ⟨t, m, ht, h⟩ := ok_of_bind h
    obtain ⟨hopen, -, rfl⟩ := expectSymbol_iff.mp ht
    obtain ⟨as, e, has, h⟩ := ok_of_bind h
    rw [separated_eq, bind_ok (skipSemicolons_run _)] at has
    obtain ⟨u, e', hu, h⟩ := ok_of_bind h
    obtain ⟨hclose, -, rfl⟩ := expectSymbol_iff.mp hu
    cases h
    exact ⟨hopen, as, e, many_gapped_iff.mp has, hclose, rfl, rfl⟩
  · rintro ⟨hopen, as, e, has, hclose, rfl, rfl⟩
    have hlist : separated item c.advance.2 = .ok as e := by
      rw [separated_eq, bind_ok (skipSemicolons_run _)]
      exact many_gapped_iff.mpr has
    unfold enclosed
    rw [bind_ok (expectSymbol_iff.mpr ⟨hopen, rfl, rfl⟩), bind_ok hlist,
      bind_ok (expectSymbol_iff.mpr ⟨hclose, rfl, rfl⟩)]
    rfl

variable {f : α → γ} {F : α → List Nat} {G : α → Nat} {T : β → β → Prop} {H : β → List Nat} {js : List Nat} {g : Guard}

/-- Where the tokens around a list in braces are, of which the last one tells its place. -/
theorem Listed.places {as : List α} {c e : Cursor} (start : Position) (hitem : Follows J .none [] item item' (Like f) F)
    (h : Listed closes item c.advance.2.pastSemicolons as e) (hopen : c.peek.kind = .symbol .leftBrace)
    (hclose : e.peek.kind = .symbol .rightBrace) :
    (∃ us, c.Over us c.advance.2.pastSemicolons) ∧ (∃ us, c.Over us e.advance.2) ∧
      c.advance.2.pastSemicolons.rest.length < c.rest.length ∧ e.rest.length ≤ c.advance.2.pastSemicolons.rest.length ∧
      e.advance.2.rest.length + 1 = e.rest.length ∧
      (c.Placed → (e.advance.2.spanFrom start).lastPlace = e.rest.length) := by
  obtain ⟨us, hus⟩ := c.exists_over_advance
  obtain ⟨vs, hvs⟩ := c.advance.2.exists_over_pastSemicolons
  obtain ⟨ws, hws⟩ := h.exists_over hitem
  obtain ⟨xs, hxs⟩ := e.exists_over_advance
  have hover := (hus.trans hvs).trans (hws.trans hxs)
  have hlt : c.advance.2.rest.length < c.rest.length := Cursor.advance_rest_lt (by rw [hopen]; nofun)
  have hlt' : e.advance.2.rest.length < e.rest.length := Cursor.advance_rest_lt (by rw [hclose]; nofun)
  have hlength : e.advance.2.rest.length + 1 = e.rest.length := by
    rw [Cursor.advance_rest, List.length_tail] at hlt' ⊢
    omega
  refine ⟨⟨_, hus.trans hvs⟩, ⟨_, hover⟩, Nat.lt_of_le_of_lt hvs.le hlt, hws.le, hlength, fun hc => ?_⟩
  have hprevious := Cursor.previous_advance (c := e) (by rw [hclose]; nofun)
  rw [Span.lastPlace, Cursor.spanFrom, hprevious, ← hlength]
  exact congrArg (· + 1) ((hc.onward hover).previous e.peek hprevious)

/-- Extra semicolons in a list in braces stand behind the brace that opens it, between items and before the brace that
closes it. -/
theorem Follows.enclosed [Progress item] [Progress item'] (hitem : Follows J .none [] item item' (Like f) F)
    (hstart : ∀ c a d, item c = .ok a d → G a = c.peek.start.offset)
    (hT : ∀ as as' s s', Like (List.map f) as as' → T (node as s) (node' as' s'))
    (hself : ∀ as s, T (node as s) (node as s))
    (hH : ∀ as s, ∀ k ∈ H (node as s), k ∈ js ∨ (k ∈ as.flatMap fun a => G a :: F a) ∨ k = s.lastPlace) :
    Follows J g js (enclosed context context' item start node) (enclosed context context' item' start' node') T H := by
  refine of_progress inferInstance fun c => ⟨⟨fun b d h => ?_, fun b d h => ?_, fun b d hc h k hk => ?_⟩,
    fun c' b d hc h hs hjs hJ => ?_⟩
  all_goals
    obtain ⟨hopen, as, e, has, hclose, rfl, rfl⟩ := enclosed_iff.mp h
    obtain ⟨⟨us, hus⟩, hover, hlt, hle, hlength, hlast⟩ := has.places start hitem hopen hclose
  · exact hover
  · exact hself _ _
  · rcases hH _ _ k hk with hmem | hmem | hmem
    · exact .inl hmem
    · have := has.within hitem hstart (hc.onward hus) k hmem
      exact .inr (by omega)
    · rw [hlast hc] at hmem
      exact .inr (by omega)
  · obtain ⟨hn, hsn⟩ := (hc.advance hs).pastSemicolons
    obtain ⟨as', e', has', hlike, he, hse⟩ := has.follows hitem hstart hn hsn fun k hj hk hk' => by
      rcases hH _ _ k (hJ k hj (by omega) (by omega)) with hmem | hmem | hmem
      · have := hjs k hmem
        omega
      · exact hmem
      · rw [hlast hc.placed] at hmem
        omega
    refine ⟨_, _, enclosed_iff.mpr ⟨(Near.peek hs).kind ▸ hopen, as', e', has',
      (Near.peek hse).kind ▸ hclose, rfl, rfl⟩, hT _ _ _ _ hlike, he.advance hse, fun heq => ?_⟩
    rw [heq] at hlength
    omega

end Enclosed

end Vernacular
