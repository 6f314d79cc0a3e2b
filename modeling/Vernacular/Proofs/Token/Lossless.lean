import Vernacular.Token.Scanner

/-!
# Tokens lose nothing of a text

What stands between two tokens is only blanks and comments (`Trivia`), and every token's text is the stretch of the
source between its two positions (`IsSlice`). So the gaps and the texts of the tokens, one after the other, are the
source again.

- `trivia_isTrivia`: what `trivia` takes is blanks and closed comments;
- `Scanner.next_ok`: what one step of the scanner takes, and where;
- `Covers`: a list of tokens lies in a list of characters from a position on, gap by gap; `Scanner.covers_tokens` gets
  it from the steps by induction on what is left;
- `tokenize_lossless`: the whole statement for a source.
-/

namespace Vernacular

variable {ts : List Token} {cs : List Char}

theorem ok_of_toOption {ε α : Type} {x : Except ε α} {a : α} (h : x.toOption = some a) : x = .ok a := by
  cases x with
  | error e => cases h
  | ok b => cases h; rfl

/-- A result that passes a test. -/
theorem exists_ok_of_any {ε α : Type} {x : Except ε α} {test : α → Bool} (h : x.toOption.any test = true) :
    ∃ a, x = .ok a ∧ test a = true := by
  cases x with
  | error e => cases h
  | ok a => exact ⟨a, rfl, h⟩

theorem ok_of_run' {ε σ α : Type} {x : EStateM ε σ α} {s : σ} {a : α} (h : x.run' s = some a) :
    ∃ s', x s = .ok a s' := by
  delta EStateM.run' EStateM.run at h
  cases hx : x s with
  | error e s' =>
    rw [hx] at h
    cases h
  | ok b s' =>
    rw [hx] at h
    cases h
    exact ⟨s', rfl⟩

/-! ## What stands between tokens -/

/-- A run of blanks and comments. A comment that begins with two slashes goes on up to a line feed or to the end of the
run; a comment in `/*` and `*/` ends at the first closing mark. -/
inductive Trivia : List Char → Prop
  | nil : Trivia []
  | blank {c : Char} {cs : List Char} : isBlank c = true → Trivia cs → Trivia (c :: cs)
  | line {body cs : List Char} : '\n' ∉ body → (∀ c ∈ cs.head?, c = '\n') → Trivia cs →
      Trivia ('/' :: '/' :: (body ++ cs))
  | block {body cs : List Char} : ¬ ['*', '/'] <:+: body ++ ['*'] → Trivia cs →
      Trivia ('/' :: '*' :: (body ++ '*' :: '/' :: cs))

/-- A block comment is closed by the first closing mark in it. -/
theorem closeComment_body {inside rest : List Char} (h : closeComment cs = some (inside, rest)) :
    ∃ body, inside = body ++ ['*', '/'] ∧ ¬ ['*', '/'] <:+: body ++ ['*'] := by
  fun_induction closeComment cs generalizing inside rest with
  | case1 => cases h
  | case2 cs =>
    cases h
    refine ⟨[], rfl, fun hi => ?_⟩
    have := hi.length_le
    simp at this
  | case3 c cs hne ih =>
    obtain ⟨⟨i, r⟩, hr, he⟩ := Option.map_eq_some_iff.mp h
    cases he
    obtain ⟨body, rfl, hb⟩ := ih hr
    refine ⟨c :: body, rfl, fun hi => ?_⟩
    rw [List.cons_append, List.infix_cons_iff] at hi
    rcases hi with hp | hi
    · -- A mark at the head would have been taken by the case before.
      have hcs := closeComment_append hr
      cases body with
      | nil => simp at hp
      | cons d body =>
        simp only [List.cons_append, List.cons_prefix_cons] at hp
        obtain ⟨rfl, rfl, -⟩ := hp
        exact hne _ rfl (by rw [← hcs]; rfl)
    · exact hb hi

/-- After a line feed the blanks and comments go on with it. -/
theorem trivia_lineFeed (cs : List Char) : (trivia ('\n' :: cs)).1 = '\n' :: (trivia cs).1 := by
  rw [trivia]
  · simp [isBlank]
  · rintro _ ⟨⟩
  · rintro _ ⟨⟩

/-- Behind a comment to the end of a line stands a line feed or nothing. -/
theorem head_trivia_dropWhile (cs : List Char) : ∀ c ∈ (trivia (cs.dropWhile (· != '\n'))).1.head?, c = '\n' := by
  intro c hc
  cases h : cs.dropWhile (· != '\n') with
  | nil => rw [h, trivia] at hc; cases hc
  | cons d ds =>
    have hd : d = '\n' := by
      have := List.head?_dropWhile_not (· != '\n') cs
      rw [h] at this
      simpa using this
    subst hd
    rw [h, trivia_lineFeed] at hc
    simpa using hc.symm

theorem trivia_isTrivia (cs : List Char) : Trivia (trivia cs).1 := by
  fun_induction trivia cs with
  | case1 => exact .nil
  | case2 cs taken rest h ih =>
    rw [h] at ih
    have hhead := head_trivia_dropWhile cs
    rw [h] at hhead
    refine .line (fun hm => ?_) hhead ih
    have := List.all_takeWhile (p := (· != '\n')) (l := cs)
    simpa using List.all_eq_true.mp this _ hm
  | case3 cs h => exact .nil
  | case4 cs inside after h taken rest h' ih =>
    rw [h'] at ih
    obtain ⟨body, rfl, hb⟩ := closeComment_body h
    simpa using Trivia.block hb ih
  | case5 c cs _ _ hb taken rest h ih =>
    rw [h] at ih
    exact .blank hb ih
  | case6 c cs => exact .nil

/-! ## Steps of the scanner -/

theorem Kind.ofWord_ne_eof (word : String) : Kind.ofWord word ≠ .eof := by
  unfold Kind.ofWord
  split
  · rintro ⟨⟩
  · split
    · rintro ⟨⟩
    · split <;> rintro ⟨⟩

/-- Only where nothing is left the end is read. -/
theorem Lexeme.eq_nil_of_read_eof {named : Bool} (h : (Lexeme.read named cs).kind = .ok .eof) : cs = [] := by
  unfold Lexeme.read at h
  split at h
  · rfl
  · cases h
  · split at h
    · simp only [word, Except.ok.injEq] at h
      split at h
      · cases h
      · exact absurd h (Kind.ofWord_ne_eof _)
    · split at h
      · simp only [number] at h
        split at h <;> cases h
      · split at h
        · simp only [quoted] at h
          split at h <;> cases h
        · split at h
          · simp only [quoted] at h
            split at h <;> cases h
          · simp only [symbol] at h
            split at h <;> cases h

/-- One step of the scanner takes a gap and the text of a token, and stands behind them. -/
theorem Scanner.next_ok {s s' : Scanner} {t : Token} (h : s.next = (.ok t, s')) :
    ∃ gap text, Trivia gap ∧ s.rest = gap ++ text ++ s'.rest ∧ t.text = String.ofList text ∧
      t.start = s.position.advanceOver gap ∧ t.stop = t.start.advanceOver text ∧ s'.position = t.stop ∧
      (t.kind = .eof → text = [] ∧ s'.rest = []) ∧ (t.kind ≠ .eof → text ≠ []) := by
  simp only [next] at h
  split at h
  · cases h
  · rename_i k hk
    simp only [Prod.mk.injEq, Except.ok.injEq] at h
    obtain ⟨rfl, rfl⟩ := h
    refine ⟨_, _, trivia_isTrivia s.rest, ?_, rfl, rfl, rfl, rfl, fun he => ?_, fun hne =>
      Lexeme.read_taken_ne_nil hk hne⟩
    · simp only [skip, List.append_assoc, Lexeme.read_append]
      exact (trivia_append s.rest).symm
    · subst he
      have hnil := Lexeme.eq_nil_of_read_eof hk
      simp only [skip, skipTrivia] at hnil ⊢
      rw [hnil]
      exact ⟨rfl, rfl⟩

/-! ## Tokens in a text -/

/-- The tokens `ts` lie in the characters `cs`, which begin at the position `p`: a gap before each token, the end
last. -/
inductive Covers : Position → List Char → List Token → Prop
  | eof {p : Position} {gap : List Char} {t : Token} : Trivia gap → t.kind = .eof → t.text = "" →
      t.start = p.advanceOver gap → t.stop = t.start → Covers p gap [t]
  | token {p : Position} {gap text rest : List Char} {t : Token} {ts : List Token} : Trivia gap → t.kind ≠ .eof →
      text ≠ [] → t.text = String.ofList text → t.start = p.advanceOver gap → t.stop = t.start.advanceOver text →
      Covers t.stop rest ts → Covers p (gap ++ text ++ rest) (t :: ts)

/-- What holds of the end and of one token before others holds of all tokens of a scanner. -/
theorem Scanner.tokens_induction {P : Scanner → List Token → Prop}
    (heof : ∀ {s s' t}, s.next = (.ok t, s') → t.kind = .eof → P s [t])
    (hcons : ∀ {s s' t ts}, s.next = (.ok t, s') → t.kind ≠ .eof → P s' ts → P s (t :: ts)) {s : Scanner}
    (h : s.tokens = .ok ts) : P s ts := by
  -- One step takes the first token; the rest is shorter.
  induction hn : s.rest.length using Nat.strongRecOn generalizing s ts with
  | ind n ih =>
    cases hx : s.next with
    | mk r s' =>
      cases r with
      | error e => rw [tokens_of_error hx] at h; cases h
      | ok t =>
        by_cases ht : t.kind = .eof
        · rw [tokens_of_eof hx ht] at h
          cases h
          exact heof hx ht
        · rw [tokens_of_ok hx ht] at h
          cases hts : s'.tokens with
          | error e => rw [hts] at h; cases h
          | ok us =>
            rw [hts] at h
            cases h
            exact hcons hx ht (ih _ (hn ▸ next_rest_lt hx ht) hts rfl)

/-- The tokens of a scanner lie in what is left of its text. -/
theorem Scanner.covers_tokens {s : Scanner} (h : s.tokens = .ok ts) : Covers s.position s.rest ts := by
  refine tokens_induction (P := fun s ts => Covers s.position s.rest ts) ?_ ?_ h
  · intro s s' t hx ht
    obtain ⟨gap, text, hgap, hrest, htext, hstart, hstop, -, heof, -⟩ := next_ok hx
    obtain ⟨rfl, hnil⟩ := heof ht
    rw [hrest, hnil, List.append_nil, List.append_nil]
    exact .eof hgap ht htext hstart hstop
  · intro s s' t ts hx ht hts
    obtain ⟨gap, text, hgap, hrest, htext, hstart, hstop, hpos, -, hword⟩ := next_ok hx
    rw [hrest]
    exact .token hgap ht (hword ht) htext hstart hstop (hpos ▸ hts)

/-! ## Stretches by their offsets -/

/-- The bytes of `source` from the offset `i` up to the offset `j` are those of `part`. -/
def IsSlice (source : String) (i j : Nat) (part : String) : Prop :=
  source.toByteArray.extract i j = part.toByteArray

theorem isSlice_middle (before part after : String) :
    IsSlice (before ++ (part ++ after)) before.utf8ByteSize (before.utf8ByteSize + part.utf8ByteSize) part := by
  have hright := ByteArray.extract_append_size_add (a := before.toByteArray)
    (b := part.toByteArray ++ after.toByteArray)
    (i := 0) (j := part.utf8ByteSize)
  rw [ByteArray.extract_append_eq_left (by rw [String.size_toByteArray])] at hright
  simpa only [IsSlice, String.toByteArray_append, String.size_toByteArray, Nat.add_zero] using hright

theorem Position.advanceOver_offset (p : Position) (cs : List Char) :
    (p.advanceOver cs).offset = p.offset + (String.ofList cs).utf8ByteSize := by
  induction cs generalizing p with
  | nil => simp
  | cons c cs ih =>
    rw [advanceOver_cons, ih, advance_offset, String.ofList_cons, String.utf8ByteSize_append,
      String.utf8ByteSize_singleton, Nat.add_assoc]

/-- `gaps` are runs of blanks and comments, and they are the stretches of `source` in front of the tokens, the first of
them from the offset `i` on. -/
def AreGaps (source : String) : Nat → List Token → List String → Prop
  | _, [], [] => True
  | i, t :: ts, gap :: gaps =>
    Trivia gap.toList ∧ IsSlice source i t.start.offset gap ∧ i ≤ t.start.offset ∧ AreGaps source t.stop.offset ts gaps
  | _, _, _ => False

/-- The gaps and the texts of the tokens, one after the other. -/
def rebuilt : List Token → List String → String
  | t :: ts, gap :: gaps => gap ++ t.text ++ rebuilt ts gaps
  | _, _ => ""

/-- Tokens other than the end are not empty and stand in `source` between their offsets; the end is empty and stands at
its end. -/
def InPlace (source : String) (t : Token) : Prop :=
  IsSlice source t.start.offset t.stop.offset t.text ∧
    if t.kind = .eof then t.text = "" ∧ t.start.offset = source.utf8ByteSize ∧ t.stop.offset = source.utf8ByteSize
    else t.text ≠ "" ∧ t.start.offset < t.stop.offset

/-- Tokens that lie in the end of a source have their gaps there, stand in place, and are its end again. -/
theorem Covers.gaps {p : Position} (h : Covers p cs ts) {before source : String}
    (hsource : source = before ++ String.ofList cs) (hp : before.utf8ByteSize = p.offset) :
    ∃ gaps, AreGaps source p.offset ts gaps ∧ (∀ t ∈ ts, InPlace source t) ∧ rebuilt ts gaps = String.ofList cs := by
  induction h generalizing before with
  | @eof p gap t hgap hkind htext hstart hstop =>
    have hoff : t.start.offset = before.utf8ByteSize + (String.ofList gap).utf8ByteSize := by
      rw [hstart, Position.advanceOver_offset, hp]
    have hend : t.start.offset = source.utf8ByteSize := by rw [hoff, hsource, String.utf8ByteSize_append]
    refine ⟨[String.ofList gap], ⟨by simpa using hgap, ?_, by omega, trivial⟩, ?_, by simp [rebuilt, htext]⟩
    · have := isSlice_middle before (String.ofList gap) ""
      rwa [String.append_empty, ← hsource, ← hoff, hp] at this
    · intro u hu
      obtain rfl := List.mem_singleton.mp hu
      refine ⟨?_, ?_⟩
      · rw [IsSlice, hstop, ByteArray.extract_same, htext]
        rfl
      · rw [if_pos hkind, hstop]
        exact ⟨htext, hend, hend⟩
  | @token p gap text rest t ts hgap hkind hne htext hstart hstop _ ih =>
    have hoff : t.start.offset = before.utf8ByteSize + (String.ofList gap).utf8ByteSize := by
      rw [hstart, Position.advanceOver_offset, hp]
    have hoff' : t.stop.offset = t.start.offset + t.text.utf8ByteSize := by
      rw [hstop, Position.advanceOver_offset, htext]
    have hfull : source = before ++ String.ofList gap ++ t.text ++ String.ofList rest := by
      rw [hsource, String.ofList_append, String.ofList_append, htext]
      simp only [String.append_assoc]
    have hsize : (before ++ String.ofList gap).utf8ByteSize = t.start.offset := by
      rw [String.utf8ByteSize_append, hoff]
    obtain ⟨gaps, hgaps, hplace, hjoin⟩ := ih hfull
      (by rw [String.utf8ByteSize_append, hsize, hoff'])
    refine ⟨String.ofList gap :: gaps, ⟨by simpa using hgap, ?_, by omega, hgaps⟩, ?_, ?_⟩
    · have := isSlice_middle before (String.ofList gap) (t.text ++ String.ofList rest)
      rwa [← String.append_assoc, ← String.append_assoc, ← hfull, ← hoff, hp] at this
    · intro u hu
      rcases List.mem_cons.mp hu with rfl | hu
      · have hslice := isSlice_middle (before ++ String.ofList gap) u.text (String.ofList rest)
        rw [← String.append_assoc, ← hfull, hsize, ← hoff'] at hslice
        have hempty : u.text ≠ "" := by simpa [htext] using hne
        have hpos : 0 < u.text.utf8ByteSize :=
          Nat.pos_of_ne_zero fun hz => hempty (String.utf8ByteSize_eq_zero_iff.mp hz)
        refine ⟨hslice, ?_⟩
        rw [if_neg hkind]
        exact ⟨hempty, by omega⟩
      · exact hplace u hu
    · simp only [rebuilt, hjoin, htext, String.ofList_append]

/-- In a run of gaps the tokens follow one another. -/
theorem AreGaps.pairwise {source : String} {i : Nat} {gaps : List String} (h : AreGaps source i ts gaps)
    (hle : ∀ t ∈ ts, t.start.offset ≤ t.stop.offset) :
    (∀ t ∈ ts, i ≤ t.start.offset) ∧ ts.Pairwise fun t u => t.stop.offset ≤ u.start.offset := by
  induction ts generalizing i gaps with
  | nil => exact ⟨by simp, .nil⟩
  | cons t ts ih =>
    cases gaps with
    | nil => exact h.elim
    | cons gap gaps =>
      obtain ⟨-, -, hi, hrest⟩ := h
      have ht := hle t List.mem_cons_self
      obtain ⟨hfrom, hpair⟩ := ih hrest fun u hu => hle u (List.mem_cons_of_mem _ hu)
      refine ⟨fun u hu => ?_, List.pairwise_cons.mpr ⟨hfrom, hpair⟩⟩
      rcases List.mem_cons.mp hu with rfl | hu
      · exact hi
      · have := hfrom u hu
        omega

/-- The last token is the end, and no other is. -/
theorem Covers.eof_last {p : Position} (h : Covers p cs ts) :
    ∃ words final, ts = words ++ [final] ∧ final.kind = .eof ∧ ∀ t ∈ words, t.kind ≠ .eof := by
  induction h with
  | @eof p gap t _ hkind _ _ _ => exact ⟨[], t, rfl, hkind, fun u hu => by cases hu⟩
  | @token p gap text rest t ts _ hkind _ _ _ _ _ ih =>
    obtain ⟨words, final, rfl, hfinal, hwords⟩ := ih
    refine ⟨t :: words, final, rfl, hfinal, fun u hu => ?_⟩
    rcases List.mem_cons.mp hu with rfl | hu
    · exact hkind
    · exact hwords u hu

/-- The byte order mark at the head of a source, if there is one. -/
def leadingMark (source : String) : String :=
  if source.toList.head? = some Scanner.byteOrderMark then String.singleton Scanner.byteOrderMark else ""

/-- The scanner of a source begins behind the byte order mark. -/
theorem Scanner.ofText_spec (source : String) :
    source = leadingMark source ++ String.ofList (ofText source).rest ∧
      (leadingMark source).utf8ByteSize = (ofText source).position.offset := by
  unfold ofText leadingMark
  cases h : source.toList with
  | nil =>
    refine ⟨?_, rfl⟩
    simp [String.toList_eq_nil_iff.mp h]
  | cons c cs =>
    have hs : source = String.singleton c ++ String.ofList cs := by
      rw [← String.ofList_cons, ← h, String.ofList_toList]
    by_cases hc : c = byteOrderMark
    · subst hc
      refine ⟨by simpa using hs, ?_⟩
      simp
    · refine ⟨?_, ?_⟩
      · simpa [hc, String.ofList_cons] using hs
      · simp [hc, Position.start]

/-- **Tokens lose nothing.** One end token stands last and at the end of the source; every other token is the stretch of
the source between its offsets and not empty; tokens follow one another without overlapping; what stands between them,
and before the first behind a byte order mark, is blanks and closed comments; and gaps and texts together are the
source. -/
theorem tokenize_lossless {source : String} {ts : List Token} (h : tokenize source = .ok ts) :
    (∃ words final, ts = words ++ [final] ∧ final.kind = .eof ∧ ∀ t ∈ words, t.kind ≠ .eof) ∧
      (∀ t ∈ ts, InPlace source t) ∧
      (ts.Pairwise fun t u => t.stop.offset ≤ u.start.offset) ∧
      ∃ gaps, AreGaps source (leadingMark source).utf8ByteSize ts gaps ∧
        leadingMark source ++ rebuilt ts gaps = source := by
  obtain ⟨hsource, hmark⟩ := Scanner.ofText_spec source
  have hcovers := Scanner.covers_tokens h
  obtain ⟨gaps, hgaps, hplace, hjoin⟩ := hcovers.gaps hsource hmark
  refine ⟨hcovers.eof_last, hplace, (hgaps.pairwise fun t ht => ?_).2, gaps, hmark ▸ hgaps, ?_⟩
  · obtain ⟨-, hkind⟩ := hplace t ht
    split at hkind
    · omega
    · omega
  · rw [hjoin, ← hsource]

/-- A byte order mark, a character of two bytes in a comment, and a point that a number gives back. -/
theorem tokenize_lossless_mixed :
    let source := "\ufeffa /*\u00e9*/ 1.x//"
    let ts : List Token := [⟨.identifier, "a", ⟨1, 1, 3⟩, ⟨1, 2, 4⟩⟩, ⟨.number, "1", ⟨1, 9, 12⟩, ⟨1, 10, 13⟩⟩,
      ⟨.symbol .dot, ".", ⟨1, 10, 13⟩, ⟨1, 11, 14⟩⟩, ⟨.identifier, "x", ⟨1, 11, 14⟩, ⟨1, 12, 15⟩⟩,
      ⟨.eof, "", ⟨1, 14, 17⟩, ⟨1, 14, 17⟩⟩]
    tokenize source = .ok ts ∧ ∃ gaps, AreGaps source 3 ts gaps ∧ "\ufeff" ++ rebuilt ts gaps = source := by
  intro source ts
  have h : tokenize source = .ok ts := ok_of_toOption (by decide +kernel)
  have hmark : leadingMark source = "\ufeff" := by decide +kernel
  have hgaps := (tokenize_lossless h).2.2.2
  rw [hmark] at hgaps
  exact ⟨h, hgaps⟩

end Vernacular
