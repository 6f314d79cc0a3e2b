import Vernacular.Compiler
import Vernacular.Proofs.Check.Cap
import Vernacular.Proofs.Token.Lossless

/-!
# The verdict of a check with a bound on its errors

A bound on the errors of a check cuts its list of errors off and changes nothing else. A program is rejected if the list
is not empty, so a bound has no part in the verdict as long as it leaves room for one error. Without room for any, every
program is accepted.

- `Program.check_take`: what a bound cuts off;
- `Program.check_accepts_iff`: when a program is accepted;
- `compile_verdict`: bounds in the settings of the compiler.
-/

namespace Vernacular

/-- **A bound only cuts off.** With room for `k` errors a check reports the first `k` errors of the check without a
bound, each with the same suggestion, and it has looked at as much. -/
theorem Program.check_take (options : CheckOptions) (k : Nat) (p : Program) :
    p.check { options with maxErrors := some k } =
      { p.check { options with maxErrors := none } with
        errors := (p.check { options with maxErrors := none }).errors.take k } :=
  p.check_capped { options with maxErrors := some k }

/-! ## Acceptance -/

/-- A list of errors that a bound leaves empty was empty before, unless the bound leaves no room. -/
theorem cut_eq_nil_iff (bound : Option Nat) (errors : List SemanticError) :
    cut bound errors = [] ↔ bound = some 0 ∨ errors = [] := by
  cases bound with
  | none => simp [cut]
  | some k => simp [cut]

/-- A program is accepted if nothing is wrong with it, or if there is no room for what is wrong. -/
theorem Program.check_accepts_iff (options : CheckOptions) (p : Program) :
    (p.check options).errors = [] ↔ options.maxErrors = some 0 ∨ (p.check options.uncapped).errors = [] := by
  rw [p.check_capped options]
  exact cut_eq_nil_iff options.maxErrors (p.check options.uncapped).errors

theorem ensureSound_eq (options : CheckOptions) (p : Program) :
    ensureSound options p =
      if (p.check options).errors = [] then .ok () else .error (.semantic (p.check options).errors) := by
  unfold ensureSound
  cases (p.check options).errors with
  | nil => rfl
  | cons e es => rfl

/-! ## Compilation -/

/-- The compilation fails in this stage. -/
def FailsIn (stage : Stage) (result : Except CompileError Compiled) : Prop := ∃ e, result = .error e ∧ e.stage = stage

/-- A source that is read is checked, if the settings ask for it, and then written. -/
theorem compile_of_parse {options : Options} {source : String} {ts : List Token} {p : Program}
    (ht : tokenize source = .ok ts) (hp : parse ts = .ok p) : compile options source = (do
      if options.analyze then ensureSound options.check p
      let script ← writeScript options.indent p
      return ⟨ts, p, script⟩) := by
  unfold compile readTokens readProgram
  rw [ht]
  show (parse ts).mapError CompileError.grammatical >>= _ = _
  rw [hp]
  rfl

/-- What has passed the check does not fail in it. -/
theorem not_failsIn_writeScript (indent : String) (ts : List Token) (p : Program) :
    ¬ FailsIn .semantic (do let script ← writeScript indent p; return ⟨ts, p, script⟩) := by
  rintro ⟨e, he, hstage⟩
  unfold writeScript at he
  cases hscript : p.script indent .zero with
  | ok s tally =>
    rw [hscript] at he
    cases he
  | error e' tally =>
    rw [hscript] at he
    cases he
    cases hstage

/-- Compilation fails in the check if the source is read as a program, a check is asked for, and it finds fault. -/
theorem compile_failsIn_semantic_iff (options : Options) (source : String) :
    FailsIn .semantic (compile options source) ↔
      options.analyze = true ∧ ∃ ts p, tokenize source = .ok ts ∧ parse ts = .ok p ∧
      (p.check options.check).errors ≠ [] := by
  constructor
  · rintro ⟨e, he, hstage⟩
    cases ht : tokenize source with
    | error flaw =>
      unfold compile readTokens at he
      rw [ht] at he
      cases he
      cases hstage
    | ok ts =>
      cases hp : parse ts with
      | error flaw =>
        unfold compile readTokens readProgram at he
        rw [ht] at he
        change (parse ts).mapError CompileError.grammatical >>= _ = _ at he
        rw [hp] at he
        cases he
        cases hstage
      | ok p =>
        rw [compile_of_parse ht hp] at he
        by_cases ha : options.analyze = true
        · rw [if_pos ha, ensureSound_eq] at he
          refine ⟨ha, ts, p, rfl, hp, fun hnil => ?_⟩
          rw [if_pos hnil] at he
          exact not_failsIn_writeScript options.indent ts p ⟨e, he, hstage⟩
        · rw [if_neg ha] at he
          exact absurd ⟨e, he, hstage⟩ (not_failsIn_writeScript options.indent ts p)
  · rintro ⟨ha, ts, p, ht, hp, herrors⟩
    refine ⟨.semantic (p.check options.check).errors, ?_, rfl⟩
    rw [compile_of_parse ht hp, if_pos ha, ensureSound_eq, if_neg herrors]
    rfl

/-- The same settings with another bound on the errors of a check. -/
def Options.withMaxErrors (options : Options) (bound : Option Nat) : Options :=
  { options with check := { options.check with maxErrors := bound } }

/-- **A bound that leaves room for an error has no part in the verdict.** With any two such bounds and all else alike,
the same sources fail in the check. A bound that leaves no room accepts every program. -/
theorem compile_verdict (options : Options) (source : String) :
    (∀ bound bound', bound ≠ some 0 → bound' ≠ some 0 →
      (FailsIn .semantic (compile (options.withMaxErrors bound) source) ↔
        FailsIn .semantic (compile (options.withMaxErrors bound') source))) ∧
      ¬ FailsIn .semantic (compile (options.withMaxErrors (some 0)) source) := by
  have hcheck (bound : Option Nat) (p : Program) : (p.check (options.withMaxErrors bound).check).errors ≠ [] ↔
      bound ≠ some 0 ∧ (p.check options.check.uncapped).errors ≠ [] := by
    rw [ne_eq, Program.check_accepts_iff, not_or]
    rfl
  have hverdict (bound : Option Nat) : FailsIn .semantic (compile (options.withMaxErrors bound) source) ↔
      bound ≠ some 0 ∧ FailsIn .semantic (compile (options.withMaxErrors none) source) := by
    rw [compile_failsIn_semantic_iff, compile_failsIn_semantic_iff]
    simp only [hcheck]
    constructor
    · rintro ⟨ha, ts, p, ht, hp, hbound, herrors⟩
      exact ⟨hbound, ha, ts, p, ht, hp, nofun, herrors⟩
    · rintro ⟨hbound, ha, ts, p, ht, hp, -, herrors⟩
      exact ⟨ha, ts, p, ht, hp, hbound, herrors⟩
  refine ⟨fun bound bound' h h' => ?_, fun hfails => ((hverdict _).mp hfails).1 rfl⟩
  rw [hverdict bound, hverdict bound', and_iff_right h, and_iff_right h']

/-- A name that is not declared is found with room for all errors. -/
theorem undeclared_failsIn : FailsIn .semantic (compile (({ analyze := true } : Options).withMaxErrors none) "q") := by
  refine (compile_failsIn_semantic_iff _ _).mpr ⟨rfl, ?_⟩
  have hcheck : ((tokenize "q").toOption.any fun ts => (parse ts).toOption.any fun p =>
      (p.check { maxErrors := none }).errors != []) = true := by decide +kernel
  obtain ⟨ts, hts, hcheck⟩ := exists_ok_of_any hcheck
  obtain ⟨p, hp, hcheck⟩ := exists_ok_of_any hcheck
  exact ⟨ts, p, hts, hp, bne_iff_ne.mp hcheck⟩

/-- It is found with room for one error, too. -/
theorem compile_verdict_undeclared :
    (none : Option Nat) ≠ some 0 ∧ some 1 ≠ some 0 ∧
      FailsIn .semantic (compile (({ analyze := true } : Options).withMaxErrors none) "q") ∧
      FailsIn .semantic (compile (({ analyze := true } : Options).withMaxErrors (some 1)) "q") :=
  ⟨nofun, nofun, undeclared_failsIn,
    ((compile_verdict { analyze := true } "q").1 none (some 1) nofun nofun).mp undeclared_failsIn⟩

/-- Without room for an error the same program has code. -/
theorem compile_without_room :
    FailsIn .semantic (compile (({ analyze := true } : Options).withMaxErrors none) "q") ∧
      ∃ compiled, compile (({ analyze := true } : Options).withMaxErrors (some 0)) "q" = .ok compiled ∧
        compiled.script = "q;" := by
  have hcode : ((compile (({ analyze := true } : Options).withMaxErrors (some 0)) "q").toOption.any
      fun compiled => compiled.script == "q;") = true := by decide +kernel
  obtain ⟨compiled, hcompiled, hscript⟩ := exists_ok_of_any hcode
  exact ⟨undeclared_failsIn, compiled, hcompiled, eq_of_beq hscript⟩

end Vernacular
