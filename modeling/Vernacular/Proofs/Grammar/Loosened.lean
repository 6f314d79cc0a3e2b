import Vernacular.Proofs.Grammar.Numbered
import Vernacular.Proofs.Grammar.Phrase
import Vernacular.Proofs.Grammar.Settled
import Vernacular.Proofs.Tree.Seams

/-!
# Readers among extra semicolons

Two runs of readers are compared, where the second one meets semicolons that the first one does not. A place in the
first run is named by the number of tokens after it. Semicolons may have been put in at the places in `J`, and the two
lists of tokens are the same but for them (`Loose`). Where the next token of the second run is not an extra one, both
runs see the same (`Synced`).

`Follows J g js p p' S H` says that the second run goes the way of the first: if `p` succeeds and extra semicolons
inside what it reads stand only at the places that its result names by `H`, then `p'` succeeds with a result related by
`S`. Whether extra semicolons may stand in front of what is read and behind it is told by `g`.

- `Follows.bind`: steps. Between two steps that read something no semicolon has been put in, since a place that a result
  names lies inside what was read for it;
- `Follows.close`: readers that give the same in front of a semicolon and where they find nothing to read;
- `Follows.many`: repetition, by induction on the tokens that are left.
-/

namespace Vernacular

open Grammar Vernacular.Parser

variable {α β γ : Type} {J : Nat → Prop}
variable {p p' q : Parser β} {context : Context} {f f' : α → Parser β} {x x' : Parser α} {k : Kind}

/-! ## Going on -/

namespace Cursor

variable {c d : Cursor} {us : List Token}

theorem Over.refl (c : Cursor) : c.Over [] c := ⟨rfl, rfl⟩

/-- One stays or leaves tokens behind. -/
theorem Over.eq_or_lt (h : c.Over us d) : d = c ∨ d.rest.length < c.rest.length := by
  cases us with
  | nil =>
    obtain ⟨previous, rest⟩ := c
    obtain ⟨previous', rest'⟩ := d
    obtain ⟨hrest, hprevious⟩ := h
    exact .inl (by simp_all)
  | cons t us =>
    rw [h.rest]
    simp only [List.length_append, List.length_cons]
    omega

/-- Going on leaves no more tokens than before. -/
theorem Over.le (h : c.Over us d) : d.rest.length ≤ c.rest.length := by
  rw [h.rest, List.length_append]
  exact Nat.le_add_left ..

theorem exists_over_advance (c : Cursor) : ∃ us, c.Over us c.advance.2 := by
  by_cases hrest : c.rest = []
  · exact ⟨[], by rw [advance, hrest]; exact .refl c⟩
  · exact ⟨_, .advance hrest⟩

end Cursor

namespace Parser

/-- What reading a token on does. -/
theorem advance_run (c : Cursor) : (advance : Parser Token) c = .ok c.peek c.advance.2 := by
  rw [← Cursor.advance_fst]
  rfl

/-- What accepting a token does. -/
theorem accept_run (k : Kind) (c : Cursor) :
    (accept k : Parser Bool) c = if c.peek.kind = k then .ok true c.advance.2 else .ok false c := by
  split
  · rename_i hk
    show (if (c.peek.kind == k) = true then _ else _ : Parser Bool) c = _
    rw [if_pos (beq_iff_eq.mpr hk)]
    rfl
  · rename_i hk
    show (if (c.peek.kind == k) = true then _ else _ : Parser Bool) c = _
    rw [if_neg fun h => hk (beq_iff_eq.mp h)]
    rfl

end Parser

/-! ## Lists with extra semicolons -/

/-- The tokens are semicolons, or they differ at most in columns and offsets. -/
structure Token.Twin (t t' : Token) : Prop where
  kind : t.kind = t'.kind
  same : t.kind ≠ .symbol .semicolon → t.text = t'.text ∧ t.start.line = t'.start.line ∧ t.stop.line = t'.stop.line

/-- Twins that are no semicolons look alike but for their places. -/
theorem Token.Twin.tokenLike {t t' : Token} (h : t.Twin t') (hk : t.kind ≠ .symbol .semicolon) :
    TokenLike .placeless t t' :=
  tokenLike_placeless h.kind (h.same hk).1

theorem Token.Twin.refl (t : Token) : t.Twin t := ⟨rfl, fun _ => ⟨rfl, rfl, rfl⟩⟩

/-- The second list has further semicolons, at places in `J`. -/
inductive Loose (J : Nat → Prop) : List Token → List Token → Prop
  | nil : Loose J [] []
  | keep {t t' : Token} {ts ts' : List Token} : t.Twin t' → Loose J ts ts' → Loose J (t :: ts) (t' :: ts')
  | insert {s : Token} {ts ts' : List Token} : J ts.length → s.kind = .symbol .semicolon → Loose J ts ts' →
      Loose J ts (s :: ts')

/-- None of the further semicolons comes first. -/
inductive Synced (J : Nat → Prop) : List Token → List Token → Prop
  | nil : Synced J [] []
  | cons {t t' : Token} {ts ts' : List Token} : t.Twin t' → Loose J ts ts' → Synced J (t :: ts) (t' :: ts')

/-- The places correspond: the tokens before them too, unless an extra semicolon was the last that was read. -/
structure Near (J : Nat → Prop) (c c' : Cursor) : Prop where
  placed : c.Placed
  loose : Loose J c.rest c'.rest
  previous : Option.Rel Token.Twin c.previous c'.previous ∨ ∃ s ∈ c'.previous, s.kind = .symbol .semicolon

namespace Near

variable {c c' : Cursor}

/-- Both see the same, or the second one sees an extra semicolon. -/
theorem synced_or (h : Near J c c') : Synced J c.rest c'.rest ∨
    J c.rest.length ∧ c'.peek.kind = .symbol .semicolon ∧ Near J c c'.advance.2 := by
  obtain ⟨hplaced, hloose, -⟩ := h
  obtain ⟨previous, rest⟩ := c
  obtain ⟨previous', rest'⟩ := c'
  cases hloose with
  | nil => exact .inl .nil
  | keep ht hts => exact .inl (.cons ht hts)
  | insert hj hs hts => exact .inr ⟨hj, hs, hplaced, hts, .inr ⟨_, rfl, hs⟩⟩

/-- Where nothing has been put in, both runs see the same token. -/
theorem synced_of_not (h : Near J c c') (hj : ¬ J c.rest.length) : Synced J c.rest c'.rest :=
  h.synced_or.resolve_right fun hs => hj hs.1

/-- Both runs see tokens of one kind. -/
theorem peek (hs : Synced J c.rest c'.rest) : c.peek.Twin c'.peek := by
  obtain ⟨previous, rest⟩ := c
  obtain ⟨previous', rest'⟩ := c'
  cases hs with
  | nil => exact .refl _
  | cons ht _ => exact ht

/-- Reading the same token on leads to corresponding places. -/
theorem advance (h : Near J c c') (hs : Synced J c.rest c'.rest) : Near J c.advance.2 c'.advance.2 := by
  obtain ⟨us, hover⟩ := c.exists_over_advance
  have hplaced := h.placed.onward hover
  obtain ⟨previous, rest⟩ := c
  obtain ⟨previous', rest'⟩ := c'
  cases hs with
  | nil => exact h
  | cons ht hts => exact ⟨hplaced, hts, .inl (.some ht)⟩

/-- The token after the next is of the same kind, unless an extra semicolon stands there. -/
theorem second (hs : Synced J c.rest c'.rest) : (c.peekNth 1).kind = (c'.peekNth 1).kind ∨
    (c'.peekNth 1).kind = .symbol .semicolon ∧ J c.advance.2.rest.length := by
  obtain ⟨previous, rest⟩ := c
  obtain ⟨previous', rest'⟩ := c'
  cases hs with
  | nil => exact .inl rfl
  | cons _ hts =>
    cases hts with
    | nil => exact .inl rfl
    | keep ht _ => exact .inl ht.kind
    | insert hj hs _ => exact .inr ⟨hs, hj⟩

/-- Line breaks are the same, unless the last token that was read is a semicolon or the next one is. -/
theorem onNewLine (h : Near J c c') (hs : Synced J c.rest c'.rest) (hprevious : c'.Settled)
    (hk : c.peek.kind ≠ .symbol .semicolon) : c.onNewLine = c'.onNewLine := by
  have hpeek := ((peek hs).same hk).2.1
  rcases h.previous with hrel | ⟨s, hmem, hsemi⟩
  · unfold Cursor.onNewLine
    unfold Cursor.Settled at hprevious
    generalize c.previous = o, c'.previous = o' at hrel hprevious
    cases hrel with
    | none => rfl
    | @some t t' ht =>
      have hkind : t.kind ≠ .symbol .semicolon := ht.kind ▸ hprevious t' rfl
      simp only [hpeek, (ht.same hkind).2.2]
  · exact absurd hsemi (hprevious s hmem)

end Near

/-! ## Runs that correspond -/

/-- What is known of extra semicolons at the ends of what a reader reads. -/
inductive Guard where
  /-- One may stand in front if nothing is read, and one may stand behind. -/
  | none
  /-- None stands in front. -/
  | before
  /-- None stands in front, and none behind if something is read. -/
  | around

namespace Guard

/-- What a guard says of the places `c` and `c'` where two runs begin and `d` where the first one ends. -/
def Holds (J : Nat → Prop) (c c' d : Cursor) : Guard → Prop
  | none => d.rest.length < c.rest.length → Synced J c.rest c'.rest
  | before => Synced J c.rest c'.rest
  | around => Synced J c.rest c'.rest ∧ (d.rest.length < c.rest.length → ¬ J d.rest.length)

/-- What is known in the second of two steps. -/
@[reducible] def next : Guard → Guard
  | around => around
  | _ => none

/-- No extra semicolon stands in front. -/
class Front (g : Guard) : Prop where
  ne_none : g ≠ none

instance : Front before := ⟨nofun⟩

instance : Front around := ⟨nofun⟩

variable {g : Guard} {c c' d : Cursor}

/-- No extra semicolon stands in front of what was read. -/
theorem Holds.synced (h : g.Holds J c c' d) (hlt : d.rest.length < c.rest.length) : Synced J c.rest c'.rest := by
  cases g with
  | none => exact h hlt
  | before => exact h
  | around => exact h.1

theorem Holds.none (h : g.Holds J c c' d) : Guard.none.Holds J c c' d := h.synced

theorem Holds.front [hg : g.Front] (h : g.Holds J c c' d) : Synced J c.rest c'.rest := by
  cases g with
  | none => exact absurd rfl hg.ne_none
  | before => exact h
  | around => exact h.1

/-- What the guard of a whole, which is read from `c` past `m` to `d`, gives for its two steps. Semicolons that have
been put in at `m` are not there if both steps read something. -/
def Splits (J : Nat → Prop) (g gx gf : Guard) (c m d : Cursor) : Prop :=
  ∀ c', (d.rest.length < m.rest.length → m.rest.length < c.rest.length → ¬ J m.rest.length) → g.Holds J c c' d →
    gx.Holds J c c' m ∧ ∀ m', Near J m m' → (m = c → Synced J c.rest c'.rest → Synced J m.rest m'.rest) →
    gf.Holds J m m' d

variable {m : Cursor} {us vs : List Token}

/-- Between two steps both runs see the same, if the second step reads something. -/
theorem synced_between {m' : Cursor} (hus : c.Over us m) (hlt : d.rest.length < m.rest.length)
    (hfree : d.rest.length < m.rest.length → m.rest.length < c.rest.length → ¬ J m.rest.length) (hg : g.Holds J c c' d)
    (hm : Near J m m') (hstay : m = c → Synced J c.rest c'.rest → Synced J m.rest m'.rest) :
    Synced J m.rest m'.rest := by
  rcases hus.eq_or_lt with heq | hlt'
  · exact hstay heq (hg.synced (heq ▸ hlt))
  · exact hm.synced_of_not (hfree hlt hlt')

/-- What is known of two steps, from what is known of both together. -/
theorem splits_next (hus : c.Over us m) (hvs : m.Over vs d) : Splits J g g g.next c m d := by
  intro c' hfree hg
  have hle := hus.le
  have hle' := hvs.le
  cases g with
  | none => exact ⟨fun hlt => hg (by omega), fun m' hm hstay hlt => synced_between hus hlt hfree hg hm hstay⟩
  | before => exact ⟨hg, fun m' hm hstay hlt => synced_between hus hlt hfree hg hm hstay⟩
  | around =>
    have hfree' (hlt : m.rest.length < c.rest.length) : ¬ J m.rest.length := by
      rcases hvs.eq_or_lt with rfl | hlt'
      · exact hg.2 hlt
      · exact hfree hlt' hlt
    refine ⟨⟨hg.1, hfree'⟩, fun m' hm hstay => ⟨?_, fun hlt => hg.2 (by omega)⟩⟩
    rcases hus.eq_or_lt with heq | hlt
    · exact hstay heq hg.1
    · exact hm.synced_of_not (hfree' hlt)

/-- A second step that reads something guards the first one on both sides. -/
theorem splits_read (hus : c.Over us m) (hlt : d.rest.length < m.rest.length) : Splits J g around before c m d := by
  intro c' hfree hg
  have hle := hus.le
  exact ⟨⟨hg.synced (by omega), hfree hlt⟩, fun m' hm hstay => synced_between hus hlt hfree hg hm hstay⟩

end Guard

/-- What the first run does by itself: it goes on from the place `c`, and names the places `js` at most and those inside
what it has read. -/
structure TraceAt (js : List Nat) (p : Parser α) (S : α → α → Prop) (H : α → List Nat) (c : Cursor) : Prop where
  onward : ∀ a d, p c = .ok a d → ∃ us, c.Over us d
  self : ∀ a d, p c = .ok a d → S a a
  within : ∀ a d, c.Placed → p c = .ok a d → ∀ k ∈ H a, k ∈ js ∨ d.rest.length < k ∧ k < c.rest.length

/-- If extra semicolons stand only where the guard allows it and at the places that are named, the second run does from
the place `c'` what the first one does from `c`. -/
def RunsAt (J : Nat → Prop) (g : Guard) (js : List Nat) (p p' : Parser α) (S : α → α → Prop) (H : α → List Nat)
    (c c' : Cursor) : Prop :=
  ∀ a d, Near J c c' → p c = .ok a d → g.Holds J c c' d → (∀ k ∈ js, c.rest.length < k) →
    (∀ k, J k → d.rest.length < k → k < c.rest.length → k ∈ H a) →
    ∃ a' d', p' c' = .ok a' d' ∧ S a a' ∧ Near J d d' ∧ (d = c → Synced J c.rest c'.rest → Synced J d.rest d'.rest)

/-- From the place `c` on, `p'` does among extra semicolons what `p` does without them. -/
structure FollowsAt (J : Nat → Prop) (g : Guard) (js : List Nat) (p p' : Parser α) (S : α → α → Prop) (H : α → List Nat)
    (c : Cursor) : Prop extends TraceAt js p S H c where
  run : ∀ c', RunsAt J g js p p' S H c c'

/-- Among extra semicolons `p'` does what `p` does without them. -/
def Follows (J : Nat → Prop) (g : Guard) (js : List Nat) (p p' : Parser α) (S : α → α → Prop) (H : α → List Nat) :
    Prop :=
  ∀ c, FollowsAt J g js p p' S H c

/-- Among extra semicolons the reader does what it does without them, as far as a view of what it gives can tell. -/
abbrev Undisturbed (J : Nat → Prop) (g : Guard) (p : Parser α) (view : α → β) (H : α → List Nat) : Prop :=
  Follows J g [] p p (Like view) H

section Steps

variable {g gx gf : Guard} {js : List Nat} {S : α → α → Prop} {T : β → β → Prop} {F : α → List Nat} {H : β → List Nat}
  {c c' : Cursor}

/-- Steps of the first run: the places that the result names are those of its parts. -/
theorem TraceAt.bind (hx : TraceAt [] x S F c) (hf : ∀ a m, x c = .ok a m → TraceAt (js ++ F a) (f a) T H m) :
    TraceAt js (x >>= f) T H c where
  onward b d h := by
    obtain ⟨a, m, ha, hb⟩ := ok_of_bind h
    obtain ⟨us, hus⟩ := hx.onward a m ha
    obtain ⟨vs, hvs⟩ := (hf a m ha).onward b d hb
    exact ⟨us ++ vs, hus.trans hvs⟩
  self b d h := by
    obtain ⟨a, m, ha, hb⟩ := ok_of_bind h
    exact (hf a m ha).self b d hb
  within b d hc h k hk := by
    obtain ⟨a, m, ha, hb⟩ := ok_of_bind h
    obtain ⟨us, hus⟩ := hx.onward a m ha
    obtain ⟨vs, hvs⟩ := (hf a m ha).onward b d hb
    have hle := hus.le
    have hle' := hvs.le
    rcases (hf a m ha).within b d (hc.onward hus) hb k hk with hmem | hmem
    · rcases List.mem_append.mp hmem with hmem | hmem
      · exact .inl hmem
      · have := (hx.within a m hc ha k hmem).resolve_left List.not_mem_nil
        exact .inr (by omega)
    · exact .inr (by omega)

/-- What is put in between two steps stands at a place that neither names, so it is not there if the second one reads
something. -/
theorem RunsAt.bind (hx : TraceAt [] x S F c) (hf : ∀ a m, x c = .ok a m → TraceAt (js ++ F a) (f a) T H m)
    (hs : ∀ a m b d, x c = .ok a m → f a m = .ok b d → g.Splits J gx gf c m d) (hrx : RunsAt J gx [] x x' S F c c')
    (hrf : ∀ a a' m m', x c = .ok a m → x' c' = .ok a' m' → S a a' → RunsAt J gf (js ++ F a) (f a) (f' a') T H m m') :
    RunsAt J g js (x >>= f) (x' >>= f') T H c c' := by
  intro b d hc h hg hjs hJ
  obtain ⟨a, m, ha, hb⟩ := ok_of_bind h
  obtain ⟨us, hus⟩ := hx.onward a m ha
  obtain ⟨vs, hvs⟩ := (hf a m ha).onward b d hb
  have hle := hus.le
  have hle' := hvs.le
  have hF {k : Nat} (hk : k ∈ F a) : m.rest.length < k :=
    ((hx.within a m hc.placed ha k hk).resolve_left List.not_mem_nil).1
  -- a place up to the end of the first step that the whole names is named there
  have hmem {k : Nat} (hj : J k) (hk : m.rest.length ≤ k) (hd : d.rest.length < k)
      (hk' : k < c.rest.length) : k ∈ F a := by
    rcases (hf a m ha).within b d (hc.placed.onward hus) hb k (hJ k hj hd hk') with hmem | hmem
    · exact (List.mem_append.mp hmem).resolve_left fun hmem => absurd (hjs k hmem) (by omega)
    · omega
  have hfree (hlt : d.rest.length < m.rest.length) (hlt' : m.rest.length < c.rest.length) : ¬ J m.rest.length :=
    fun hj => absurd (hF (hmem hj (Nat.le_refl _) hlt hlt')) (Nat.lt_irrefl _)
  obtain ⟨hgx, hgf⟩ := hs a m b d ha hb c' hfree hg
  obtain ⟨a', m', ha', hS, hm, hstay⟩ := hrx a m hc ha hgx nofun
    fun k hj hk hk' => hmem hj (Nat.le_of_lt hk) (by omega) hk'
  obtain ⟨b', d', hb', hT, hd, hstay'⟩ := hrf a a' m m' ha ha' hS b d hm hb (hgf m' hm hstay)
    (fun k hk => (List.mem_append.mp hk).elim (fun hk => Nat.lt_of_le_of_lt hle (hjs k hk)) hF)
    fun k hj hk hk' => hJ k hj hk (by omega)
  refine ⟨b', d', (bind_ok ha' f').trans hb', hT, hd, fun heq hs => ?_⟩
  have hm : m = c := hus.eq_or_lt.resolve_right fun hlt => by rw [heq] at hle'; omega
  exact hstay' (heq.trans hm.symm) (hstay hm hs)

/-- Two steps, with any guards for which the guard of both is enough. -/
theorem FollowsAt.bindWith (hx : FollowsAt J gx [] x x' S F c)
    (hf : ∀ a a' m, x c = .ok a m → S a a' → FollowsAt J gf (js ++ F a) (f a) (f' a') T H m)
    (hs : ∀ a m b d, x c = .ok a m → f a m = .ok b d → g.Splits J gx gf c m d) :
    FollowsAt J g js (x >>= f) (x' >>= f') T H c := by
  have htrace (a : α) (m : Cursor) (ha : x c = .ok a m) := (hf a a m ha (hx.self a m ha)).toTraceAt
  exact ⟨hx.toTraceAt.bind htrace, fun c' => .bind hx.toTraceAt htrace hs (hx.run c') fun a a' m m' ha _ hS =>
    (hf a a' m ha hS).run m'⟩

/-- Two steps: in the second one, nothing is known of what stands in front. -/
theorem FollowsAt.bind (hx : FollowsAt J g [] x x' S F c)
    (hf : ∀ a a' m, x c = .ok a m → S a a' → FollowsAt J g.next (js ++ F a) (f a) (f' a') T H m) :
    FollowsAt J g js (x >>= f) (x' >>= f') T H c :=
  hx.bindWith hf fun a m b d ha hb => by
    obtain ⟨us, hus⟩ := hx.onward a m ha
    obtain ⟨vs, hvs⟩ := (hf a a m ha (hx.self a m ha)).onward b d hb
    exact Guard.splits_next hus hvs

/-! ## Choices -/

/-- Only what the reader does at the place counts. -/
theorem TraceAt.congr (h : TraceAt js p T H c) (hq : q c = p c) : TraceAt js q T H c := by
  obtain ⟨hover, hself, hwithin⟩ := h
  rw [← hq] at hover hself hwithin
  exact ⟨hover, hself, hwithin⟩

theorem RunsAt.congr {q' : Parser β} (h : RunsAt J g js p p' T H c c') (hq : q c = p c) (hq' : q' c' = p' c') :
    RunsAt J g js q q' T H c c' := by
  intro b d hc hb hg hjs hJ
  rw [hq']
  exact h b d hc (hq ▸ hb) hg hjs hJ

/-- Looks which of two things to do. -/
def choose (o : Cursor → Option α) (q : Parser β) (p : α → Parser β) : Parser β := fun c => (o c).elim q p c

variable {o : Cursor → Option α} {p p' : α → Parser β} {q' : Parser β}

/-- A choice that is not taken. -/
theorem choose_none (h : o c = none) : choose o q p c = q c := by
  unfold choose
  rw [h]
  rfl

theorem choose_some {a : α} (h : o c = some a) : choose o q p c = p a c := by
  unfold choose
  rw [h]
  rfl

instance [hq : Progress q] [hp : ∀ a, Progress (p a)] : Progress (choose o q p) where
  le c := by
    cases ho : o c with
    | none => exact choose_none ho ▸ hq.le c
    | some a => exact choose_some ho ▸ (hp a).le c
  lt c b d h := by
    cases ho : o c with
    | none => exact hq.lt c b d ((choose_none ho).symm.trans h)
    | some a => exact (hp a).lt c b d ((choose_some ho).symm.trans h)

/-- A choice, whichever way it is taken. -/
theorem TraceAt.choose (hq : TraceAt js q T H c) (hp : ∀ a, TraceAt js (p a) T H c) :
    TraceAt js (choose o q p) T H c := by
  cases ho : o c with
  | none => exact hq.congr (choose_none ho)
  | some a => exact (hp a).congr (choose_some ho)

/-- In front of an extra semicolon nothing is chosen that reads on, and where something is, none stands in front. -/
theorem RunsAt.choose (hsync : Near J c c' → Synced J c.rest c'.rest → o c = o c')
    (hsemi : c'.peek.kind = .symbol .semicolon → o c' = none)
    (hread : ∀ a b d, o c = some a → p a c = .ok b d → d.rest.length < c.rest.length)
    (hq : RunsAt J .none js q q' T H c c') (hp : ∀ a, RunsAt J .before js (p a) (p' a) T H c c') :
    RunsAt J .none js (choose o q p) (choose o q' p') T H c c' := by
  intro b d hc hb hg hjs hJ
  cases ho : o c with
  | none =>
    have ho' : o c' = none := hc.synced_or.elim (fun hs => hsync hc hs ▸ ho) fun hs => hsemi hs.2.1
    exact hq.congr (choose_none ho) (choose_none ho') b d hc hb hg hjs hJ
  | some a =>
    have hs := hg (hread a b d ho ((choose_some ho).symm.trans hb))
    exact (hp a).congr (choose_some ho) (choose_some (hsync hc hs ▸ ho)) b d hc hb hs hjs hJ

end Steps

namespace Follows

variable {g : Guard} {js : List Nat} {S : α → α → Prop} {T : β → β → Prop} {F : α → List Nat} {H : β → List Nat}

/-! ## Steps -/

/-- Nothing is read, so the places that the result names are those that are known. -/
protected theorem pure {b b' : β} (h : T b b') (hs : T b b) (hH : ∀ k ∈ H b, k ∈ js) :
    Follows J g js (pure b) (pure b') T H := fun c => {
  onward := by
    rintro _ _ ⟨⟩
    exact ⟨[], .refl c⟩
  self := by
    rintro _ _ ⟨⟩
    exact hs
  within := by
    rintro _ _ - ⟨⟩ k hk
    exact .inl (hH k hk)
  run := by
    rintro c' _ _ hc ⟨⟩ - - -
    exact ⟨b', c', rfl, h, hc, fun _ => id⟩ }

theorem throw {e e' : SyntaxError} : Follows J g js (throw e) (throw e') T H := fun c => {
  onward := by rintro _ _ ⟨⟩
  self := by rintro _ _ ⟨⟩
  within := by rintro _ _ - ⟨⟩
  run := by rintro c' _ _ - ⟨⟩ }

/-- One reader after another. -/
protected theorem bind (hx : Follows J g [] x x' S F)
    (hf : ∀ a a', S a a' → Follows J g.next (js ++ F a) (f a) (f' a') T H) : Follows J g js (x >>= f) (x' >>= f') T H :=
  fun c => (hx c).bind fun a a' m _ ha => hf a a' ha m

/-- What holds under a guard holds under every guard that says more where the reader succeeds. -/
theorem guarded {g' : Guard} (h : Follows J g js p p' T H)
    (hg : ∀ c c' b d, p c = .ok b d → g'.Holds J c c' d → g.Holds J c c' d) : Follows J g' js p p' T H := fun c => {
  toTraceAt := (h c).toTraceAt
  run := fun c' b d hc hb hg' => (h c).run c' b d hc hb (hg c c' b d hb hg') }

/-- Under every guard holds what holds without one. -/
theorem free (h : Follows J .none js p p' T H) : Follows J g js p p' T H :=
  h.guarded fun _ _ _ _ _ hg => hg.none

/-- What holds if nothing is known of the place behind holds if something is. -/
theorem around (h : Follows J .before js p p' T H) : Follows J .around js p p' T H :=
  h.guarded fun _ _ _ _ _ hg => hg.1

/-- No extra semicolon stands in front of a reader that always reads something. -/
theorem of_progress (hp : Progress p) (h : Follows J .before js p p' T H) : Follows J g js p p' T H :=
  h.guarded fun c _ b d hb hg => hg.synced (hp.lt c b d hb)

/-- A step that names no place. -/
theorem skip (hx : Follows J g [] x x' S fun _ => []) (hf : ∀ a a', S a a' → Follows J g.next js (f a) (f' a') T H) :
    Follows J g js (x >>= f) (x' >>= f') T H :=
  hx.bind fun a a' ha => by simpa using hf a a' ha

/-- A step, and then one that always reads something: no extra semicolon stands around the first. -/
theorem into (hx : Follows J .around [] x x' S F) (hp : ∀ a, Progress (f a))
    (hf : ∀ a a', S a a' → Follows J .before (js ++ F a) (f a) (f' a') T H) :
    Follows J g js (x >>= f) (x' >>= f') T H :=
  fun c => (hx c).bindWith (fun a a' m _ ha => hf a a' ha m) fun a m b d ha hb => by
    obtain ⟨us, hus⟩ := (hx c).onward a m ha
    exact Guard.splits_read hus ((hp a).lt m b d hb)

/-- A step behind which no semicolon has been put in, before one that reads something. -/
theorem skipInto (hx : Follows J .around [] x x' S fun _ => []) (hp : ∀ a, Progress (f a))
    (hf : ∀ a a', S a a' → Follows J .before js (f a) (f' a') T H) :
    Follows J g js (x >>= f) (x' >>= f') T H :=
  hx.into hp fun a a' ha => by simpa using hf a a' ha

/-- By cases on a test that both runs make. -/
theorem ite {b : Prop} [Decidable b] {q' : Parser β} (hp : Follows J g js p p' T H) (hq : Follows J g js q q' T H) :
    Follows J g js (if b then p else q) (if b then p' else q') T H := by
  split
  · exact hp
  · exact hq

/-- What was named may be named again. -/
theorem mono {js' : List Nat} (h : Follows J g js p p' T H) (hjs : ∀ k ∈ js, k ∈ js') :
    Follows J g js' p p' T H := fun c => {
  onward := (h c).onward
  self := (h c).self
  within := fun b d hc hb k hk => ((h c).within b d hc hb k hk).imp (hjs k) id
  run := fun c' b d hc hb hg hjs' => (h c).run c' b d hc hb hg fun k hk => hjs' k (hjs k hk) }

theorem imp {T' : β → β → Prop} (h : Follows J g js p p' T H) (hT : ∀ b b', T b b' → T' b b') :
    Follows J g js p p' T' H := fun c => {
  onward := (h c).onward
  self := fun b d hb => hT b b ((h c).self b d hb)
  within := (h c).within
  run := fun c' b d hc hb hg hjs hJ => by
    obtain ⟨b', d', hb', hb, hd⟩ := (h c).run c' b d hc hb hg hjs hJ
    exact ⟨b', d', hb', hT b b' hb, hd⟩ }

/-- What the first reader ensures is known of what it gives. -/
theorem and_ensures {G : β → Prop} (h : Follows J g js p p' T H) (hG : Ensures (fun _ => True) p fun b _ => G b) :
    Follows J g js p p' (fun b b' => T b b' ∧ G b) H := fun c => {
  onward := (h c).onward
  self := fun b d hb => ⟨(h c).self b d hb, hG c b d trivial hb⟩
  within := (h c).within
  run := fun c' b d hc hb hg hjs hJ => by
    obtain ⟨b', d', hb', hT, hd⟩ := (h c).run c' b d hc hb hg hjs hJ
    exact ⟨b', d', hb', ⟨hT, hG c b d trivial hb⟩, hd⟩ }

/-- Where nothing was read, an extra semicolon may stand in front, if there too nothing is read and the result is the
same. -/
theorem close (h : Follows J .before js p p' T H)
    (hend : ∀ c c' b, p c = .ok b c → c'.peek.kind = .symbol .semicolon → ∃ b', p' c' = .ok b' c' ∧ T b b') :
    Follows J g js p p' T H := by
  refine free fun c => ⟨(h c).toTraceAt, fun c' b d hc hb hg hjs hJ => ?_⟩
  rcases hc.synced_or with hs | ⟨-, hsemi, -⟩
  · exact (h c).run c' b d hc hb hs hjs hJ
  · obtain ⟨us, hus⟩ := (h c).onward b d hb
    rcases hus.eq_or_lt with rfl | hlt
    · obtain ⟨b', hb', hT⟩ := hend d c' b hb hsemi
      exact ⟨b', c', hb', hT, hc, fun _ => id⟩
    · exact (h c).run c' b d hc hb (hg hlt) hjs hJ

/-- An item that is found has been read; in front of a semicolon there is none. -/
theorem closeItem {item item' : Parser (Option α)} [hm : Moving item] {S : Option α → Option α → Prop}
    {F : Option α → List Nat} (h : Follows J .before [] item item' S F) (hS : S none none)
    (hend : ∀ c : Cursor, c.peek.kind = .symbol .semicolon → item' c = .ok none c) : Follows J g [] item item' S F := by
  refine h.close fun c c' o ho hc' => ⟨none, hend c' hc', ?_⟩
  cases o with
  | none => exact hS
  | some a => exact absurd (hm.lt c a c ho) (Nat.lt_irrefl _)

/-! ## Looking -/

/-- A look at what is the same in both runs where both see the same. -/
theorem look [g.Front] (a : Cursor → α) (hs : ∀ c, S (a c) (a c))
    (ha : ∀ c c', Near J c c' → Synced J c.rest c'.rest → S (a c) (a c'))
    (hf : ∀ a a', S a a' → Follows J g js (f a) (f' a') T H) :
    Follows J g js ((fun c => .ok (a c) c) >>= f) ((fun c => .ok (a c) c) >>= f') T H := fun c => {
  toTraceAt := { (hf _ _ (hs c) c).toTraceAt with }
  run := fun c' b d hc hb hold => (hf _ _ (ha c c' hc (hold.front)) c).run c' b d hc hb hold }

/-- A look at what does not matter. -/
theorem glance (a a' : Cursor → α) (hf : ∀ a a', Follows J g js (f a) (f' a') T H) :
    Follows J g js ((fun c => .ok (a c) c) >>= f) ((fun c => .ok (a' c) c) >>= f') T H := fun c => {
  toTraceAt := { (hf (a c) (a' c) c).toTraceAt with }
  run := fun c' => (hf (a c) (a' c') c).run c' }

/-- Where no extra semicolon stands in front, both runs look at the same token. -/
theorem peek [g.Front] {f f' : Token → Parser β} (hf : ∀ t t', Token.Twin t t' → Follows J g js (f t) (f' t') T H) :
    Follows J g js (peek >>= f) (peek >>= f') T H :=
  look Cursor.peek (fun _ => .refl _) (fun _ _ _ => Near.peek) hf

theorem kind [g.Front] {f f' : Kind → Parser β} (hf : ∀ k, Follows J g js (f k) (f' k) T H) :
    Follows J g js (kind >>= f) (kind >>= f') T H :=
  look (S := Eq) (fun c => c.peek.kind) (fun _ => rfl) (fun _ _ _ hs => (Near.peek hs).kind) fun k _ hk => hk ▸ hf k

theorem check [g.Front] {f f' : Bool → Parser β} (hf : ∀ b, Follows J g js (f b) (f' b) T H) :
    Follows J g js (check k >>= f) (check k >>= f') T H :=
  look (S := Eq) (fun c => c.peek.kind == k) (fun _ => rfl) (fun _ _ _ hs => by rw [(Near.peek hs).kind])
    fun b _ hb => hb ▸ hf b

/-- Places are not compared. -/
theorem position {f f' : Position → Parser β} (hf : ∀ a a', Follows J g js (f a) (f' a') T H) :
    Follows J g js (position >>= f) (position >>= f') T H :=
  glance (fun c => c.peek.start) (fun c => c.peek.start) hf

theorem spanFrom {start start' : Position} {f f' : Span → Parser β} (hf : ∀ a a', Follows J g js (f a) (f' a') T H) :
    Follows J g js (spanFrom start >>= f) (spanFrom start' >>= f') T H :=
  glance (fun c => c.spanFrom start) (fun c => c.spanFrom start') hf

theorem fail {expected : List String} : Follows J g js (fail expected context) (fail expected context) T H :=
  glance (fun c => c.errorHere expected context) (fun c => c.errorHere expected context) fun _ _ => throw

theorem tooDeep : Follows J g js (tooDeep context) (tooDeep context) T H :=
  position fun _ _ => throw

/-- A look at the kind of the next token: the reader reads on, or it does what it does in front of a semicolon. -/
theorem kindThen {f f' : Kind → Parser β}
    (hsemi : Follows J .none js (f (.symbol .semicolon)) (f' (.symbol .semicolon)) T H)
    (hf : ∀ k, f k = f (.symbol .semicolon) ∧ f' k = f' (.symbol .semicolon) ∨
      Progress (f k) ∧ Follows J .before js (f k) (f' k) T H) :
    Follows J g js (Parser.kind >>= f) (Parser.kind >>= f') T H := by
  have hlook : Follows J .before js (Parser.kind >>= f) (Parser.kind >>= f') T H := by
    refine kind fun k => ?_
    rcases hf k with ⟨hk, hk'⟩ | hk
    · rw [hk, hk']
      exact hsemi.free
    · exact hk.2
  refine free fun c => ⟨(hlook c).toTraceAt, fun c' b d hc hb hg hjs hJ => ?_⟩
  rcases hc.synced_or with hs | ⟨-, hc', -⟩
  · exact (hlook c).run c' b d hc hb hs hjs hJ
  · rcases hf c.peek.kind with ⟨hk, -⟩ | ⟨hread, -⟩
    · refine ((hsemi c).run c').congr (congrFun hk c) ?_ b d hc hb hg hjs hJ
      rw [← hc']
      rfl
    · exact (hlook c).run c' b d hc hb (hg (hread.lt c b d hb)) hjs hJ

/-- A look for a token of kind `k`, which is read with what follows it. -/
theorem checkThen {f f' : Bool → Parser β} (hk : k ≠ .symbol .semicolon) (hread : Progress (f true))
    (htrue : Follows J .before js (f true) (f' true) T H) (hfalse : Follows J .none js (f false) (f' false) T H) :
    Follows J g js (Parser.check k >>= f) (Parser.check k >>= f') T H := by
  have hsemi : (Kind.symbol .semicolon == k) = false := beq_false_of_ne hk.symm
  show Follows J g js (Parser.kind >>= fun l => f (l == k)) (Parser.kind >>= fun l => f' (l == k)) T H
  refine kindThen (by rwa [hsemi]) fun l => ?_
  cases hl : l == k with
  | false => exact .inl ⟨by rw [hsemi], by rw [hsemi]⟩
  | true => exact .inr ⟨hread, htrue⟩

/-- A choice behind a step that does not end with a semicolon. The line on which it ends may have a bearing on the
choice. -/
theorem bindChoose {o : Cursor → Option γ} {q q' : α → Parser β} {p p' : α → γ → Parser β}
    (hx : Follows J .none [] x x' S F)
    (hsettled : Settles x') (hsync : ∀ c c', Near J c c' → Synced J c.rest c'.rest → c'.Settled → o c = o c')
    (hsemi : ∀ c, c.peek.kind = .symbol .semicolon → o c = none)
    (hread : ∀ a i c b d, o c = some i → p a i c = .ok b d → d.rest.length < c.rest.length)
    (hq : ∀ a a', S a a' → Follows J .none (js ++ F a) (q a) (q' a') T H)
    (hp : ∀ a a' i, S a a' → Follows J .before (js ++ F a) (p a i) (p' a' i) T H) :
    Follows J g js (x >>= fun a => choose o (q a) (p a)) (x' >>= fun a => choose o (q' a) (p' a)) T H := by
  refine free fun c => ?_
  have htrace (a : α) (m : Cursor) (ha : x c = .ok a m) : TraceAt (js ++ F a) (choose o (q a) (p a)) T H m :=
    have hself := (hx c).self a m ha
    .choose (hq a a hself m).toTraceAt fun i => (hp a a i hself m).toTraceAt
  have hsplits (a : α) (m : Cursor) (b : β) (d : Cursor) (ha : x c = .ok a m) (hb : choose o (q a) (p a) m = .ok b d) :
      Guard.none.Splits J .none .none c m d := by
    obtain ⟨us, hus⟩ := (hx c).onward a m ha
    obtain ⟨vs, hvs⟩ := (htrace a m ha).onward b d hb
    exact Guard.splits_next hus hvs
  refine ⟨(hx c).toTraceAt.bind htrace, fun c' => .bind (hx c).toTraceAt htrace hsplits ((hx c).run c') ?_⟩
  intro a a' m m' _ ha' hS
  exact .choose (fun hm hs => hsync m m' hm hs (hsettled c' a' m' trivial ha')) (hsemi m') (fun i => hread a i m)
    ((hq a a' hS m).run m') fun i => (hp a a' i hS m).run m'

/-! ## Reading -/

/-- A token is read on, where no extra semicolon stands in front. -/
theorem advance : Follows J .before [] advance advance Token.Twin fun _ => [] := fun c => {
  onward := fun t d h => by
    rw [advance_run] at h
    cases h
    exact c.exists_over_advance
  self := fun t _ _ => .refl t
  within := fun _ _ _ _ _ hk => absurd hk List.not_mem_nil
  run := fun c' t d hc h hs _ _ => by
    rw [advance_run] at h
    cases h
    refine ⟨c'.peek, c'.advance.2, advance_run c', Near.peek hs, hc.advance hs, fun heq hs => ?_⟩
    -- nothing is read at the end only, and there both runs are at the end
    obtain ⟨previous, rest⟩ := c
    obtain ⟨previous', rest'⟩ := c'
    cases hs with
    | nil => exact .nil
    | cons =>
      have hrest := congrArg (fun c => c.rest.length) heq
      simp [Cursor.advance] at hrest }

/-- A token of one of the allowed kinds is read. -/
theorem expect {allowed : List Kind} (hsemi : .symbol .semicolon ∉ allowed) [Progress (expect allowed context)] :
    Follows J g [] (expect allowed context) (expect allowed context)
      (fun t t' => TokenLike .placeless t t' ∧ t.kind ∈ allowed) fun _ => [] := by
  refine of_progress inferInstance (imp (and_ensures (G := fun t => t.kind ∈ allowed) (kind fun k => .ite advance fail)
    (.expect fun _ _ hk => hk)) ?_)
  rintro t t' ⟨ht, hk⟩
  exact ⟨ht.tokenLike fun h => hsemi (h ▸ hk), hk⟩

/-- A keyword that has to be there: a semicolon is none, so none has been put in in front of it. -/
theorem expectKeyword {k : Keyword} : Follows J g [] (Parser.expect [.keyword k] context)
    (Parser.expect [.keyword k] context) (fun t t' => TokenLike .placeless t t' ∧ t.kind ∈ [.keyword k]) fun _ => [] :=
  expect (by simp)

/-- A symbol that has to be there. -/
theorem expectSymbol {s : Symbol} :
    Follows J g [] (expectSymbol s context) (expectSymbol s context) (fun _ _ => True) fun _ => [] :=
  of_progress inferInstance ((kind fun _ => .ite advance fail).imp fun _ _ _ => trivial)

theorem propertyWord : Follows J g [] (propertyWord context) (propertyWord context)
    (TokenLike .placeless) fun _ => [] := by
  refine of_progress inferInstance
    (imp (and_ensures (G := fun t => t.kind.isWord = true) (kind fun k => .ite advance fail)
    (.propertyWord fun _ _ hk => hk)) ?_)
  rintro t t' ⟨ht, hk⟩
  exact ht.tokenLike fun h => by rw [h] at hk; cases hk

/-- A name that has to be there. -/
theorem identifier : Undisturbed J g (identifier context) (Ident.view .placeless) fun _ => [] := by
  have : Progress (Parser.expect [.identifier] context) := .expect (by simp)
  refine (expect (by simp)).skip fun t t' ht => .pure (.ident (ht.1.text ?_) ht.1.span) rfl nofun
  rw [List.mem_singleton.mp ht.2]
  rfl

/-- A token that may be there. In front of a semicolon, as at the place without it, there is none. -/
theorem accept (hk : k ≠ .symbol .semicolon) (hend : k ≠ .eof) :
    Follows J g [] (accept k) (accept k) Eq fun _ => [] := by
  refine close (check fun b => .ite (advance.skip fun _ _ _ => .pure rfl rfl nofun) (.pure rfl rfl nofun)) ?_
  intro c c' b hb hsemi
  refine ⟨false, by rw [accept_run, if_neg (hsemi ▸ hk.symm)], ?_⟩
  rw [accept_run] at hb
  split at hb
  · rename_i hkind
    have hlt := Cursor.advance_rest_lt (c := c) (hkind ▸ hend)
    rw [(EStateM.Result.ok.inj hb).2] at hlt
    exact absurd hlt (Nat.lt_irrefl _)
  · cases hb
    rfl

/-- The same, followed by a reader that may begin with an extra semicolon. -/
theorem acceptThen {f f' : Bool → Parser β} (hk : k ≠ .symbol .semicolon) (hend : k ≠ .eof)
    (hf : ∀ b, Follows J .none js (f b) (f' b) T H) :
    Follows J g js (Parser.accept k >>= f) (Parser.accept k >>= f') T H :=
  free ((accept hk hend).skip fun b _ hb => hb ▸ hf b)

/-- A semicolon is read if one is there, and an extra one may be read for it. -/
theorem acceptSemicolon : Follows J g [] (Parser.accept (.symbol .semicolon)) (Parser.accept (.symbol .semicolon))
    (fun _ _ => True) fun _ => [] := by
  have hlook : Follows J .before [] (Parser.accept (.symbol .semicolon)) (Parser.accept (.symbol .semicolon))
      (fun _ _ => True)
      fun _ => [] :=
    check fun b => .ite (advance.skip fun _ _ _ => .pure trivial trivial nofun) (.pure trivial trivial nofun)
  refine free fun c => ⟨(hlook c).toTraceAt, fun c' b d hc hb hg hjs hJ => ?_⟩
  rcases hc.synced_or with hs | ⟨-, hsemi, hpast⟩
  · exact (hlook c).run c' b d hc hb hs hjs hJ
  · by_cases hkind : c.peek.kind = .symbol .semicolon
    · refine (hlook c).run c' b d hc hb (hg ?_) hjs hJ
      rw [accept_run, if_pos hkind] at hb
      cases hb
      exact Cursor.advance_rest_lt (by rw [hkind]; nofun)
    · rw [accept_run, if_neg hkind] at hb
      cases hb
      refine ⟨true, c'.advance.2, by rw [accept_run, if_pos hsemi], trivial, hpast, fun _ hs => ?_⟩
      exact absurd ((Near.peek hs).kind.trans hsemi) hkind

/-- A part that is there if a token of kind `k` is. -/
theorem optional {f : α → γ} {p p' : Parser α} {K K' : Option α → Parser β} (hk : k ≠ .symbol .semicolon)
    (hend : k ≠ .eof) (hp : Follows J .none [] p p' (Like f) F)
    (hK : ∀ o o', Like (Option.map f) o o' → Follows J .none (js ++ o.elim [] F) (K o) (K' o') T H) : Follows J g js
      (Parser.accept k >>= fun b => if b = true then p >>= fun a => pure (some a) >>= K else pure none >>= K)
      (Parser.accept k >>= fun b => if b = true then p' >>= fun a =>
        pure (some a) >>= K' else pure none >>= K') T H := by
  refine acceptThen hk hend fun b => ?_
  exact .ite (hp.bind fun a a' ha => hK (some a) (some a') ha.some) ((hK none none rfl).mono (by simp))

/-! ## Repetition -/

/-- By induction on the tokens that are left: a round that goes on has read one. -/
theorem many {f : α → γ} {item item' : Parser (Option α)} [hm : Moving item] [Moving item'] (hg : g.next = g)
    (h : Follows J g [] item item' (Like (Option.map f)) fun o => o.elim [] F) :
    Follows J g [] (many item) (many item') (Like (List.map f)) fun as => as.flatMap F := by
  have hstep (item : Parser (Option α)) [Moving item] : Parser.many item = item >>= again item := funext many_step
  intro c
  induction hn : c.rest.length using Nat.strongRecOn generalizing c with
  | ind n ih =>
    rw [hstep item, hstep item']
    refine (h c).bind fun o o' m hitem ho => ?_
    rw [hg]
    cases o with
    | none =>
      obtain rfl : o' = none := Option.map_eq_none_iff.mp ho.symm
      exact Follows.pure (T := Like (List.map f)) rfl rfl (by simp) m
    | some a =>
      obtain ⟨a', rfl, ha⟩ := Option.map_eq_some_iff.mp ho.symm
      refine (ih _ (hn ▸ hm.lt c a m hitem) m rfl).bind fun as as' e _ has => ?_
      exact Follows.pure (Like.cons ha.symm has) rfl (by simp) e

/-- Items that name no place. -/
theorem manyPlain {f : α → γ} {item item' : Parser (Option α)} [Moving item] [Moving item'] (hg : g.next = g)
    (h : Follows J g [] item item' (Like (Option.map f)) fun _ => []) :
    Follows J g [] (Parser.many item) (Parser.many item') (Like (List.map f)) fun _ => [] := by
  have hnone : (fun _ => [] : Option α → List Nat) = fun o => o.elim [] fun _ => [] := by
    funext o
    cases o <;> rfl
  have hflat : (fun _ => [] : List α → List Nat) = fun as => as.flatMap fun _ => [] :=
    funext fun as => (List.flatMap_eq_nil_iff.mpr fun _ _ => rfl).symm
  rw [hnone] at h
  rw [hflat]
  exact many hg h

/-- What stands behind commas in a list that goes on as long as there are commas. -/
theorem afterCommas {f : α → γ} {item item' : Parser α} [Forward item] [Forward item']
    (h : Follows J .none [] item item' (Like f) F) :
    Follows J g [] (afterCommas item) (afterCommas item') (Like (List.map f)) fun as => as.flatMap F := by
  refine free (many rfl (acceptThen nofun nofun fun b => ?_))
  exact .ite (h.bind fun a a' ha => .pure ha.some rfl (by simp)) (.pure rfl rfl (by simp))

/-- A list with a closing symbol behind it, which is looked for also behind a comma. -/
theorem commaList {f : α → γ} {closing : Symbol} {item item' : Parser α} [Forward item] [Forward item']
    (h : Follows J .none [] item item' (Like f) F) :
    Follows J .around [] (commaList closing item) (commaList closing item')
      (Like (List.map f)) fun as => as.flatMap F := by
  refine check fun b => .ite (.pure rfl rfl (by simp)) (h.free.bind fun a a' ha => ?_)
  refine (many (F := F) rfl ((accept (k := .symbol .comma) nofun nofun).skip fun b _ hb => ?_)).bind fun as as' has =>
    .pure (ha.cons has) rfl (by simp)
  subst hb
  refine .ite (check fun b => ?_) (.pure rfl rfl (by simp))
  exact .ite (.pure rfl rfl (by simp)) (h.free.bind fun a a' ha => .pure ha.some rfl (by simp))

/-! ## The token after the next -/

/-- A look at two tokens, of which the first is read then. If the second is looked for and read, no semicolon has been
put in between them. -/
theorem ahead {o : Cursor → Option α} {p p' : α → Parser β} {q' : Parser β}
    (ho : ∀ c c', Synced J c.rest c'.rest → o c = o c' ∨ o c' = none ∧ J c.advance.2.rest.length)
    (hread : ∀ c a b d, o c = some a → p a c.advance.2 = .ok b d → d.rest.length < c.advance.2.rest.length)
    (hq : Follows J .before js q q' T H) (hp : ∀ a, Follows J .before js (p a) (p' a) T H) :
    Follows J .before js (Vernacular.choose o q fun a => Parser.advance >>= fun _ => p a)
      (Vernacular.choose o q' fun a => Parser.advance >>= fun _ => p' a) T H := by
  intro c
  cases hc : o c with
  | none =>
    refine ⟨(hq c).toTraceAt.congr (choose_none hc), fun c' b d hnear hb hs => ?_⟩
    have hc' : o c' = none := (ho c c' hs).elim (fun h => h ▸ hc) And.left
    exact ((hq c).run c').congr (choose_none hc) (choose_none hc') b d hnear hb hs
  | some a =>
    have hsome {c : Cursor} {q : Parser β} {p : α → Parser β} (hc : o c = some a) :
        Vernacular.choose o q (fun a => Parser.advance >>= fun _ => p a) c = (Parser.advance >>= fun _ => p a) c :=
      choose_some hc
    obtain ⟨us, hus⟩ := c.exists_over_advance
    have hstep : FollowsAt J .before js (Parser.advance >>= fun _ => p a) (Parser.advance >>= fun _ => p' a) T H c := by
      have hnext (m : Cursor) : FollowsAt J .before (js ++ []) (p a) (p' a) T H m := by simpa using hp a m
      refine (advance.around c).bindWith (fun _ _ m _ _ => hnext m) fun t m b d ht hb => ?_
      rw [advance_run] at ht
      cases ht
      exact Guard.splits_read hus (hread c a b d hc hb)
    refine ⟨hstep.toTraceAt.congr (hsome hc), fun c' b d hnear hb hs hjs hJ => ?_⟩
    rcases ho c c' hs with hc' | ⟨-, hj⟩
    · exact (hstep.run c').congr (hsome hc) (hsome (hc' ▸ hc)) b d hnear hb hs hjs hJ
    · -- here a semicolon would have been put in between
      obtain ⟨t, m, ht, hb'⟩ := ok_of_bind ((hsome hc).symm.trans hb)
      rw [advance_run] at ht
      cases ht
      have hlt := hread c a b d hc hb'
      have hlength : c.advance.2.rest.length = c.rest.length - 1 := by simp
      have hmem := hJ _ hj hlt (by omega)
      rcases (hp a c.advance.2).within b d (hnear.placed.onward hus) hb' _ hmem with hmem | hmem
      · have := hjs _ hmem
        omega
      · omega

/-- Brackets are a pair in both runs or in none. -/
theorem brackets : Follows J g [] brackets brackets Eq fun _ => [] := by
  let pair (c : Cursor) : Option Unit :=
    if c.peek.kind = .symbol .leftBracket ∧ (c.peekNth 1).kind = .symbol .rightBracket then some () else none
  have heq : Parser.brackets = Vernacular.choose pair (pure none) fun _ =>
      Parser.advance >>= fun _ => Parser.advance >>= fun _ => pure (some "[]") := by
    funext c
    show (if _ then _ else _ : Parser (Option String)) c =
        ((pair c).elim (pure none) fun _ => _ : Parser (Option String)) c
    unfold pair
    split <;> rfl
  refine closeItem ?_ rfl fun c hc => ?_
  · rw [heq]
    refine ahead (fun c c' hs => ?_) (fun c a b d hc hb => ?_) (.pure rfl rfl (by simp))
      fun _ => advance.skip fun _ _ _ => .pure rfl rfl (by simp)
    · unfold pair
      rw [(Near.peek hs).kind]
      rcases Near.second hs with hkind | ⟨hsemi, hj⟩
      · exact .inl (by rw [hkind])
      · refine .inr ⟨if_neg fun h => ?_, hj⟩
        rw [hsemi] at h
        exact absurd h.2 (by decide)
    · have hkind : c.advance.2.peek.kind = .symbol .rightBracket := by
        rw [Cursor.peek_advance]
        exact (Option.ite_none_right_eq_some.mp hc).1.2
      obtain ⟨t, m, ht, hb⟩ := ok_of_bind hb
      rw [advance_run] at ht
      cases ht
      cases hb
      exact Cursor.advance_rest_lt (by rw [hkind]; decide)
  · rw [heq]
    exact choose_none (if_neg fun h => by rw [hc] at h; exact absurd h.1 (by decide))

/-- The name of a type with its brackets. -/
theorem typeName : Undisturbed J g typeName (Ident.viewBy .placeless View.placeless.type) fun _ => [] := by
  have : Progress (Parser.expect typeKinds .typeName) := .expect (by simp [typeKinds])
  rw [typeName_eq]
  refine free (position fun start start' => (expect (by simp [typeKinds])).skip fun t t' ht => ?_)
  refine (manyPlain rfl (brackets.imp fun o o' ho => congrArg (Option.map id) ho)).skip fun lists lists' hl => ?_
  obtain rfl : lists = lists' := by simpa [Like] using hl
  refine spanFrom fun s s' => .pure (.ident ?_ rfl) rfl (by simp)
  rw [show t.text = t'.text from ht.1.word]
  rfl

theorem optionalType : Undisturbed J g optionalType (Option.map (Ident.viewBy .placeless View.placeless.type)) fun _ =>
    [] := by
  refine acceptThen nofun nofun fun b => ?_
  exact .ite (typeName.skip fun t t' ht => .pure ht.some rfl (by simp)) (.pure rfl rfl (by simp))

end Follows

end Vernacular
