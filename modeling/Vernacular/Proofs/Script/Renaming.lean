import Vernacular.Proofs.Script.Total
import Vernacular.Proofs.Script.Written

/-!
# Names in code where they are declared and where they are used

A name that a program declares is written as it is where it is declared. Where it is used it goes through a table that
knows nothing of scopes. So it is written as it was declared unless it stands in the table.

- `compile_names`: for what was compiled;
- `compile_floor`: a variable that stands in the table.
-/

namespace Vernacular

/-! ## What was compiled -/

theorem ok_of_bind {ε α β : Type} {x : Except ε α} {f : α → Except ε β} {b : β} (h : (x >>= f) = .ok b) :
    ∃ a, x = .ok a ∧ f a = .ok b := by
  cases x with
  | error e => cases h
  | ok a => exact ⟨a, rfl, h⟩

theorem ok_of_mapError {ε ε' α : Type} {x : Except ε α} {f : ε → ε'} {a : α} (h : x.mapError f = .ok a) :
    x = .ok a := by
  cases x <;> cases h
  rfl

/-- What was compiled was read, passed the check if there was one, and was written. -/
theorem compile_inv {options : Options} {source : String} {compiled : Compiled}
    (h : compile options source = .ok compiled) : parse compiled.tokens = .ok compiled.program ∧
      (options.analyze = true → (compiled.program.check options.check).errors = []) ∧
      writeScript options.indent compiled.program = .ok compiled.script := by
  obtain ⟨ts, -, h⟩ := ok_of_bind h
  obtain ⟨p, hp, h⟩ := ok_of_bind h
  have hparse := ok_of_mapError hp
  have hlast (h : (do let script ← writeScript options.indent p; return ⟨ts, p, script⟩ : Except CompileError Compiled)
      = .ok compiled) : ∃ script, writeScript options.indent p = .ok script ∧ ⟨ts, p, script⟩ = compiled := by
    obtain ⟨script, hscript, h⟩ := ok_of_bind h
    exact ⟨script, hscript, Except.ok.inj h⟩
  split at h
  · obtain ⟨_, hsound, h⟩ := ok_of_bind h
    obtain ⟨script, hscript, rfl⟩ := hlast h
    refine ⟨hparse, fun _ => ?_, hscript⟩
    unfold ensureSound at hsound
    split at hsound
    · assumption
    · cases hsound
  · obtain ⟨script, hscript, rfl⟩ := hlast h
    exact ⟨hparse, fun ha => absurd ha ‹_›, hscript⟩

/-- A name is written in the same way where it is used and where it is declared exactly if it does not stand in the
table. -/
theorem identifierName_eq_self_iff (name : String) :
    identifierName name = name ↔ identifierTable.lookup name = none := by
  have htable : (identifierTable.all fun e => e.1 != e.2) = true := by decide
  rw [identifierName]
  cases h : identifierTable.lookup name with
  | none => simp
  | some target =>
    obtain ⟨before, after, hentry, -⟩ := List.lookup_eq_some_iff.mp h
    have hne := List.all_eq_true.mp htable (name, target) (by rw [hentry]; simp)
    simpa using fun heq => absurd heq.symm (bne_iff_ne.mp hne)

/-- The pieces of what was compiled, with the scopes of the check that the settings ask for. -/
def Compiled.pieces (options : Options) (compiled : Compiled) : List Piece :=
  compiled.program.pieces options.check options.indent

/-- Code that was compiled consists of pieces. Where one of them uses a name that the scopes hold, another declares it,
at the very place that the scopes give, and the name is written in the same way in both exactly if it does not stand in
the table. If the program passed a check that reports errors, then every other name that is used needs no
declaration. -/
theorem compile_names {options : Options} {source : String} {compiled : Compiled}
    (h : compile options source = .ok compiled) :
    codeOf (compiled.pieces options) = compiled.script ∧
      (∀ name place, .used name (some place) ∈ compiled.pieces options →
        .declared ⟨name, place⟩ ∈ compiled.pieces options ∧
          ((Piece.used name (some place)).text = (Piece.declared ⟨name, place⟩).text ↔
            identifierTable.lookup name = none)) ∧
      (options.analyze = true → ∀ name, .used name none ∈ compiled.pieces options →
        name ∈ options.check.names ∨ options.check.maxErrors = some 0) := by
  obtain ⟨hparse, hcheck, hscript⟩ := compile_inv h
  rw [writeScript_of_sound (parse_sound_everything hparse)] at hscript
  refine ⟨(Program.codeOf_pieces ..).trans (Except.ok.inj hscript), fun name place hused => ?_, fun ha name hused => ?_⟩
  · rcases Program.found_declared hused with hdeclared | hsilent
    · exact ⟨hdeclared, identifierName_eq_self_iff name⟩
    · exact (Program.written hparse _ _ _ hsilent).elim
  · exact Program.provided (hcheck ha) _ hused rfl

/-- A parameter with a default, a function that is called after it, and a loop over items inside it. -/
def summing : String :=
  "funcao soma(a, b = a) { variavel t = a; para constante x de b mostrar(t + x) } soma(1)"

theorem compile_names_loop : ∃ compiled, compile { analyze := true } summing = .ok compiled ∧
    .used "x" (some ⟨⟨1, 56, 55⟩, ⟨1, 57, 56⟩⟩) ∈ compiled.pieces { analyze := true } ∧
    .declared ⟨"x", ⟨1, 56, 55⟩, ⟨1, 57, 56⟩⟩ ∈ compiled.pieces { analyze := true } ∧
    .used "mostrar" none ∈ compiled.pieces { analyze := true } := by
  let options : Options := { analyze := true }
  let place : Span := ⟨⟨1, 56, 55⟩, ⟨1, 57, 56⟩⟩
  have hcheck : ((compile options summing).toOption.any fun compiled =>
      (compiled.pieces options).contains (.used "x" (some place))
        && (compiled.pieces options).contains (.used "mostrar" none)) = true := by decide +kernel
  obtain ⟨compiled, h, hcheck⟩ := exists_ok_of_any hcheck
  simp only [Bool.and_eq_true, List.contains_iff_mem] at hcheck
  obtain ⟨hx, hmostrar⟩ := hcheck
  exact ⟨compiled, h, hx, ((compile_names h).2.1 "x" place hx).1, hmostrar⟩

/-- A variable with a name that stands in the table is not what its code uses. -/
theorem compile_floor : ∃ compiled, compile { analyze := true } "variavel piso = 3; mostrar(piso)" = .ok compiled ∧
    compiled.script = "let piso = 3;\nconsole.log(Math.floor);" ∧
    .used "piso" (some ⟨⟨1, 10, 9⟩, ⟨1, 14, 13⟩⟩) ∈ compiled.pieces { analyze := true } ∧
    .declared ⟨"piso", ⟨1, 10, 9⟩, ⟨1, 14, 13⟩⟩ ∈ compiled.pieces { analyze := true } := by
  let options : Options := { analyze := true }
  let place : Span := ⟨⟨1, 10, 9⟩, ⟨1, 14, 13⟩⟩
  have hcheck : ((compile options "variavel piso = 3; mostrar(piso)").toOption.any fun compiled =>
      compiled.script == "let piso = 3;\nconsole.log(Math.floor);"
        && (compiled.pieces options).contains (.used "piso" (some place))
        && (compiled.pieces options).contains (.declared ⟨"piso", place⟩)) = true := by decide +kernel
  obtain ⟨compiled, h, hcheck⟩ := exists_ok_of_any hcheck
  simp only [Bool.and_eq_true, beq_iff_eq, List.contains_iff_mem] at hcheck
  exact ⟨compiled, h, hcheck.1.1, hcheck.1.2, hcheck.2⟩

end Vernacular
