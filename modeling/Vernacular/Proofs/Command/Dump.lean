import Mathlib.Data.List.Nodup
import Vernacular.Command.Outcome
import Vernacular.Proofs.Tree.Dump

/-!
# Dumps are unambiguous

The text that a dump prints stands for one program, or for one list of tokens: the document is read back from it
(`Json.read?_compact`, `Json.read?_pretty`), and the tree is determined by the document (`Stmt.toJson_inj`).
-/

namespace Vernacular

open Json

/-! ## Tokens -/

theorem Keyword.label_inj (k l : Keyword) : k.label = l.label ↔ k = l := by
  have hnodup : (all.map label).Nodup := by decide +kernel
  exact ⟨fun h => List.inj_on_of_nodup_map hnodup k.mem_all l.mem_all h, congrArg label⟩

theorem Symbol.label_inj (s t : Symbol) : s.label = t.label ↔ s = t := by
  have hnodup : (all.map label).Nodup := by decide +kernel
  exact ⟨fun h => List.inj_on_of_nodup_map hnodup s.mem_all t.mem_all h, congrArg label⟩

/-- No symbol has the name of another kind of token. -/
theorem Symbol.label_notMem (s : Symbol) :
    s.label ∉ ["Eof", "Type", "Builtin", "Identifier", "Number", "String", "Template"] := by
  cases s <;> simp [label]

theorem Kind.toJson_inj (k l : Kind) : k.toJson = l.toJson ↔ k = l := by
  cases k with
  | keyword k => cases l <;> simp [toJson, Keyword.label_inj]
  | symbol s =>
    cases l with
    | symbol t => simp [toJson, Symbol.label_inj]
    | keyword l => simp [toJson]
    | _ =>
      simp only [toJson, text_inj, reduceCtorEq, iff_false]
      exact fun h => s.label_notMem (by simp [h])
  | _ =>
    cases l with
    | symbol t =>
      simp only [toJson, text_inj, reduceCtorEq, iff_false]
      exact fun h => t.label_notMem (by simp [← h])
    | _ => simp [toJson]

theorem Kind.isDump (k : Kind) : k.toJson.IsDump := by
  cases k <;> simp [toJson, tagged, fieldNames]

theorem Token.toJson_inj (t u : Token) : t.toJson = u.toJson ↔ t = u := by
  cases t; cases u; simp [toJson, Kind.toJson_inj]

theorem Token.isDump (t : Token) : t.toJson.IsDump := by
  simp [toJson, t.kind.isDump, fieldNames]

theorem Token.isDump_array (ts : List Token) : (array (ts.map Token.toJson)).IsDump := areDumps_map isDump ts

/-! ## Programs -/

theorem Program.toJson_inj (p q : Program) : p.toJson = q.toJson ↔ p = q := by
  cases p; cases q; simp [toJson, stmtsToJson_inj]

theorem Program.isDump (p : Program) : p.toJson.IsDump := by
  simp [toJson, stmts_areDumps, fieldNames]

/-! ## Texts -/

/-- A printed document is determined by what is printed, in either form. -/
theorem document_inj {i j : Json} (hi : i.IsDump) (hj : j.IsDump) (pretty : Bool) :
    Command.document pretty i = Command.document pretty j ↔ i = j := by
  refine ⟨fun h => ?_, congrArg _⟩
  simp only [Command.document, Product.print.injEq, String.append_left_inj] at h
  have hread : some i = some j := by
    cases pretty with
    | false => rw [← read?_compact plain_fieldNames hi, ← read?_compact plain_fieldNames hj]; exact congrArg read? h
    | true => rw [← read?_pretty plain_fieldNames hi, ← read?_pretty plain_fieldNames hj]; exact congrArg read? h
  exact Option.some.inj hread

/-- **Dumps are unambiguous.** Two programs whose dumps are printed alike are the same program, in the compact form and
in the pretty one, and likewise two lists of tokens. -/
theorem document_unambiguous (pretty : Bool) :
    (∀ p q : Program, Command.document pretty p.toJson = Command.document pretty q.toJson ↔ p = q) ∧
    ∀ ts us : List Token,
      Command.document pretty (.array (ts.map Token.toJson)) = Command.document pretty (.array (us.map Token.toJson)) ↔
        ts = us := by
  refine ⟨fun p q => ?_, fun ts us => ?_⟩
  · rw [document_inj p.isDump q.isDump, Program.toJson_inj]
  · rw [document_inj (Token.isDump_array ts) (Token.isDump_array us), array.injEq]
    exact List.map_inj_right fun t u h => (Token.toJson_inj t u).mp h

end Vernacular
