import Vernacular.Proofs.Grammar.Sound
import Vernacular.Proofs.Token.Lexical
import Vernacular.Proofs.Token.Lossless
import Vernacular.Script.Render

/-!
# Trees whose leaves can be spelled

The names and literals of a tree that was read from a text are lexemes of the right kinds (`Lexicon.spelled`): each was
taken from one token, and a token's text is a lexeme by itself (`tokenize_admits`).
-/

namespace Vernacular

open Grammar

/-- The names and literals that are lexemes of the kinds that may stand at their place. -/
def Lexicon.spelled : Lexicon where
  ident s := ∃ k ∈ identKinds, IsLexeme k s
  bound s := IsLexeme .identifier s
  base s := ∃ k ∈ classKinds, IsLexeme k s
  member s := ∃ k, (k.isWord = true ∧ (default : Modifiers).add? k = none ∧ k ≠ .keyword .construtor) ∧ IsLexeme k s
  word s := ∃ k, k.isWord = true ∧ IsLexeme k s
  number s := IsLexeme .number s
  string s q := IsLexeme .string (requoted s q)
  template s := IsLexeme .template (requoted s '`')

/-- A quoted text ends with its quote. -/
theorem Closed.last {q : Char} {cs : List Char} (h : Closed q cs) : ∃ body, cs = body ++ [q] := by
  induction h with
  | quote => exact ⟨[], rfl⟩
  | escape c _ ih =>
    obtain ⟨body, rfl⟩ := ih
    exact ⟨'\\' :: c :: body, rfl⟩
  | cons _ _ _ ih =>
    obtain ⟨body, rfl⟩ := ih
    exact ⟨_ :: body, rfl⟩

/-- Quotes that are taken off and put back. -/
theorem requoted_unquoted {s : String} {q : Char} {inside : List Char} (hs : s.toList = q :: inside)
    (h : closeQuote q inside = some (inside, [])) : requoted (unquoted s) (quoteOf s) = s := by
  obtain ⟨body, rfl⟩ := (closeQuote_closed h).1.last
  refine String.toList_inj.mp ?_
  simp [requoted, unquoted, quoteOf, hs]

theorem quoteKind?_inv {q : Char} {k : Kind} (h : quoteKind? q = some k) : k = .string ∨ (k = .template ∧ q = '`') := by
  unfold quoteKind? at h
  split at h
  · exact .inl (Option.some.inj h).symm
  · split at h
    · rename_i hq
      exact .inr ⟨(Option.some.inj h).symm, eq_of_beq hq⟩
    · cases h

/-- A token that was read stands for what can be spelled. -/
theorem admits_of_read {named : Bool} {cs : List Char} {t : Token}
    (h : (Lexeme.read named cs).kind = .ok t.kind) (htext : t.text = String.ofList (Lexeme.read named cs).taken) :
    Lexicon.spelled.Admits named t := by
  have htaken : (Lexeme.read named cs).taken = t.text.toList := by rw [htext, String.toList_ofList]
  by_cases heof : t.kind = .eof
  · exact .of_not_isWord (by rw [heof]; rfl) (by simp [heof]) (by simp [heof]) (by simp [heof])
  · rcases Lexeme.read_inv h heof with ⟨hword, hw, hk⟩ | ⟨hk, hn⟩ | ⟨q, inside, hq, hs, hclose⟩ | ⟨s, hk⟩
    · rw [htaken] at hw hk
      rw [String.ofList_toList] at hk
      have hlex := isLexeme_word hw
      -- without a mark before it, the word is of the kind that it spells
      have hkind (hn : named = false) : IsLexeme t.kind t.text := by
        rw [hk, hn]
        exact hlex
      have hne (k : Kind) (hk : k.isWord = false) : t.kind ≠ k := fun h => by rw [h, hk] at hword; cases hword
      exact {
        number := fun h => absurd h (hne _ rfl)
        string := fun h => absurd h (hne _ rfl)
        template := fun h => absurd h (hne _ rfl)
        word := fun _ => ⟨_, Kind.isWord_ofWord t.text, hlex⟩
        ident := fun hn hi => ⟨_, hi, hkind hn⟩
        bound := fun hn hb => hb.subst (motive := fun k => IsLexeme k t.text) (hkind hn)
        base := fun hn hb => ⟨_, hb, hkind hn⟩
        member := fun hn hw hm hc => ⟨_, ⟨hw, hm, hc⟩, hkind hn⟩ }
    · rw [htaken] at hn
      exact .of_not_isWord (by rw [hk]; rfl) (fun _ => isLexeme_number hn) (by simp [hk]) (by simp [hk])
    · rw [htaken] at hs
      have hstring : IsLexeme t.kind (requoted (unquoted t.text) (quoteOf t.text)) := by
        rw [requoted_unquoted hs hclose]
        exact isLexeme_quoted hq hs hclose
      rcases quoteKind?_inv hq with hk | ⟨hk, rfl⟩
      · rw [hk] at hstring
        exact .of_not_isWord (by rw [hk]; rfl) (by simp [hk]) (fun _ => hstring) (by simp [hk])
      · have hq' : quoteOf t.text = '`' := by simp [quoteOf, hs]
        rw [hq', hk] at hstring
        exact .of_not_isWord (by rw [hk]; rfl) (by simp [hk]) (by simp [hk]) (fun _ => hstring)
    · exact .of_not_isWord (by rw [hk]; rfl) (by simp [hk]) (by simp [hk]) (by simp [hk])

theorem Scanner.next_admits {s s' : Scanner} {t : Token} (h : s.next = (.ok t, s')) :
    Lexicon.spelled.Admits (s.previous.any Kind.namesNext) t ∧ s'.previous = some t.kind := by
  simp only [next] at h
  split at h
  · cases h
  · rename_i k hk
    cases h
    exact ⟨admits_of_read hk rfl, rfl⟩

/-- The tokens of a text stand for what can be spelled. -/
theorem tokenize_admits {source : String} {ts : List Token} (h : tokenize source = .ok ts) :
    Lexicon.spelled.AdmitsAll false ts := by
  have hts := Scanner.tokens_induction
    (P := fun s ts => Lexicon.spelled.AdmitsAll (s.previous.any Kind.namesNext) ts) ?_ ?_ h
  · have hprevious : (Scanner.ofText source).previous = none := by
      unfold Scanner.ofText
      split
      · rfl
      · split <;> rfl
    rwa [hprevious] at hts
  · intro s s' t hx _
    exact ⟨(Scanner.next_admits hx).1, trivial⟩
  · intro s s' t ts hx _ hts
    obtain ⟨ht, hprevious⟩ := Scanner.next_admits hx
    rw [hprevious] at hts
    exact ⟨ht, hts⟩

/-- The names and literals of a program that was read from a text can be spelled. -/
theorem parse_spelled {source : String} {ts : List Token} {p : Program} (ht : tokenize source = .ok ts)
    (hp : parse ts = .ok p) : p.Sound .spelled :=
  parse_sound (tokenize_admits ht) hp

end Vernacular
