import Vernacular.Proofs.Check.Resolution
import Vernacular.Proofs.Text.Utf8

/-!
# Runs of the scope stack

A run opens and leaves scopes and declares names in any order. It may leave more scopes than it opened.

- `Scopes.mem_visibleNames`, `Scopes.visibleNames_increasing`: the names in sight are those that are found, in the order
  of their bytes;
- `Scopes.plain_run`: the outermost scope, which `Scopes` keeps apart, is the last one of a plain stack that is popped
  only if another scope stays;
- `Scopes.Above.run`: what is known while some scopes are open inside a stack, from one step to all of them;
- `Scopes.run_lawful`: what holds after any run, and what a run between opening a scope and leaving it can change.
-/

namespace Vernacular.Scopes

/-! ## Steps -/

/-- One change of the stack. Looking up names is none. -/
inductive Step where
  | enter (kind : ScopeKind)
  | exit
  | declare (name : String) (place : Span)
  | declareGlobal (name : String) (place : Span)
deriving DecidableEq, Repr

def Step.apply (step : Step) (s : Scopes) : Scopes :=
  match step with
  | enter kind => s.enter kind
  | exit => s.exit
  | declare name place => s.declare name place
  | declareGlobal name place => s.declareGlobal name place

def Step.isEnter : Step → Bool
  | enter _ => true
  | _ => false

/-- How many scopes are open after a step, if `n` are before it. Only what is open can be left. -/
def Step.depth? : Step → Nat → Option Nat
  | enter _, n => some (n + 1)
  | exit, n + 1 => some n
  | exit, 0 => none
  | declare _ _, n | declareGlobal _ _, n => some n

/-- Where a step declares a name for the outermost scope. -/
def Step.global? (name : String) : Step → Option Span
  | declareGlobal other place => if name = other then some place else none
  | _ => none

def run (s : Scopes) (steps : List Step) : Scopes := steps.foldl (fun s step => step.apply s) s

/-- How many scopes are open after all steps. -/
def depth? (n : Nat) (steps : List Step) : Option Nat := steps.foldlM (fun n step => step.depth? n) n

/-- The steps leave the scopes that they open, and no other. -/
def Balanced (steps : List Step) : Prop := depth? 0 steps = some 0

instance (steps : List Step) : Decidable (Balanced steps) := inferInstanceAs (Decidable (_ = _))

/-- Where the steps first declare a name for the outermost scope. -/
def firstGlobal? (name : String) (steps : List Step) : Option Span := steps.findSome? (Step.global? name)

theorem run_append (s : Scopes) (steps steps' : List Step) : s.run (steps ++ steps') = (s.run steps).run steps' :=
  List.foldl_append

/-! ## The names in sight -/

/-- A name is in sight if it can be found. -/
theorem mem_visibleNames (s : Scopes) (name : String) : name ∈ s.visibleNames ↔ (s.lookup? name).isSome := by
  rw [visibleNames, List.mem_mergeSort, List.mem_eraseDups, List.mem_flatMap]
  exact (s.isDeclared_iff name).symm

/-- What is left without repetitions has none. -/
theorem nodup_eraseDups (names : List String) : names.eraseDups.Nodup := by
  induction h : names.length using Nat.strongRecOn generalizing names with
  | ind n ih =>
    cases names with
    | nil => exact List.nodup_nil
    | cons name names =>
      rw [List.eraseDups_cons, List.nodup_cons]
      refine ⟨by simp [List.mem_eraseDups], ih _ ?_ _ rfl⟩
      rw [← h, List.length_cons]
      exact Nat.lt_succ_of_le (List.length_filter_le ..)

/-- The names in sight are in the order of their bytes, each once. -/
theorem visibleNames_increasing (s : Scopes) :
    s.visibleNames.Pairwise fun a b => Bytes.ofText a < Bytes.ofText b := by
  have hsorted : s.visibleNames.Pairwise fun a b => decide (a ≤ b) = true := by
    refine List.pairwise_mergeSort (fun a b c hab hbc => ?_) (fun a b => ?_) _
    · exact decide_eq_true (String.le_trans (of_decide_eq_true hab) (of_decide_eq_true hbc))
    · simpa using String.le_total a b
  have hnodup : s.visibleNames.Nodup := (List.mergeSort_perm _ _).nodup_iff.mpr (nodup_eraseDups _)
  refine (hsorted.and hnodup).imp fun {a b} ⟨hle, hne⟩ => Bytes.ofText_lt ?_
  rw [← String.not_le]
  exact fun hge => hne (String.le_antisymm (of_decide_eq_true hle) hge)

/-! ## What every run keeps -/

/-- Only entering counts as opening a scope. -/
theorem opened_apply (step : Step) (s : Scopes) :
    (step.apply s).opened = s.opened + if step.isEnter then 1 else 0 := by
  cases step with
  | enter kind => rfl
  | exit => rfl
  | declare name place => cases h : s.inner <;> simp [Step.apply, declare, h, Step.isEnter]
  | declareGlobal name place =>
    by_cases h : (s.globals.lookup name).isSome <;> simp [Step.apply, declareGlobal, h, Step.isEnter]

theorem opened_run (steps : List Step) (s : Scopes) :
    (s.run steps).opened = s.opened + steps.countP Step.isEnter := by
  induction steps generalizing s with
  | nil => rfl
  | cons step steps ih =>
    show ((step.apply s).run steps).opened = _
    rw [ih, opened_apply, List.countP_cons, Nat.add_assoc, Nat.add_comm (List.countP _ _)]

/-- The outermost scope keeps its names. -/
theorem globals_apply (step : Step) (s : Scopes) : s.globals <:+ (step.apply s).globals := by
  cases step with
  | enter kind => exact List.suffix_rfl
  | exit => exact List.suffix_rfl
  | declare name place =>
    cases h : s.inner <;> simp [Step.apply, declare, h]
  | declareGlobal name place =>
    by_cases h : (s.globals.lookup name).isSome <;> simp [Step.apply, declareGlobal, h]

theorem globals_run (steps : List Step) (s : Scopes) : s.globals <:+ (s.run steps).globals := by
  induction steps generalizing s with
  | nil => exact List.suffix_rfl
  | cons step steps ih => exact (globals_apply step s).trans (ih (step.apply s))

/-! ## A plain stack -/

/-- A stack of scopes that sets none of them apart. Nothing in it keeps the outermost scope from being left. -/
structure Stack where
  /-- The innermost first. -/
  scopes : List Scope
  opened : Nat
deriving DecidableEq, Repr

namespace Stack

/-- A new stack. -/
def start : Stack := ⟨[⟨.global, []⟩], 1⟩

/-- Declares a name in the outermost of the scopes, unless it is declared there already. -/
def declareLast (name : String) (place : Span) : List Scope → List Scope
  | [] => []
  | [scope] =>
    [if (scope.names.lookup name).isSome then scope else { scope with names := (name, place) :: scope.names }]
  | scope :: next :: scopes => scope :: declareLast name place (next :: scopes)

/-- One change. A scope is left only if another one stays. -/
def apply (stack : Stack) : Step → Stack
  | .enter kind => ⟨⟨kind, []⟩ :: stack.scopes, stack.opened + 1⟩
  | .exit => if 1 < stack.scopes.length then { stack with scopes := stack.scopes.tail } else stack
  | .declare name place =>
    { stack with scopes := stack.scopes.modifyHead fun scope => { scope with names := (name, place) :: scope.names } }
  | .declareGlobal name place => { stack with scopes := declareLast name place stack.scopes }

def run (stack : Stack) (steps : List Step) : Stack := steps.foldl apply stack

theorem declareLast_concat (name : String) (place : Span) (scopes : List Scope) (scope : Scope) :
    declareLast name place (scopes ++ [scope]) = scopes ++ declareLast name place [scope] := by
  induction scopes with
  | nil => rfl
  | cons first scopes ih =>
    -- `declareLast` looks one scope ahead, so the rest is split as well
    cases scopes with
    | nil => rfl
    | cons next scopes => exact congrArg (first :: ·) ih

end Stack

/-- The scopes as a plain stack. -/
def plain (s : Scopes) : Stack := ⟨s.toList, s.opened⟩

/-- A name for the outermost scope does not touch the others. -/
theorem declareLast_toList (s : Scopes) (name : String) (place : Span) :
    Stack.declareLast name place s.toList = (s.declareGlobal name place).toList := by
  rw [toList, Stack.declareLast_concat, Stack.declareLast, declareGlobal, outermost]
  split <;> rfl

/-- **One step does the same to the plain stack.** There the guard of `Stack.apply` keeps the outermost scope. -/
theorem plain_apply (step : Step) (s : Scopes) : (step.apply s).plain = s.plain.apply step := by
  cases step with
  | enter kind => rfl
  | exit =>
    obtain ⟨inner, globals, opened⟩ := s
    cases inner with
    | nil => rfl
    | cons scope scopes => simp [Step.apply, exit, plain, Stack.apply, toList, outermost]
  | declare name place =>
    obtain ⟨inner, globals, opened⟩ := s
    cases inner <;> rfl
  | declareGlobal name place =>
    have hopened : (s.declareGlobal name place).opened = s.opened := opened_apply (.declareGlobal name place) s
    rw [Step.apply, plain, plain, Stack.apply, declareLast_toList, hopened]

/-- **All steps do the same to the plain stack.** -/
theorem plain_run (steps : List Step) (s : Scopes) : (s.run steps).plain = s.plain.run steps := by
  induction steps generalizing s with
  | nil => rfl
  | cons step steps ih =>
    show ((step.apply s).run steps).plain = (s.plain.apply step).run steps
    rw [ih, plain_apply]

/-! ## Between opening a scope and leaving it -/

/-- `t` has `n` scopes open inside a scope that was opened above the scopes `outer`. -/
def Above (outer : List Scope) (n : Nat) (t : Scopes) : Prop :=
  ∃ scope scopes, scopes.length = n ∧ t.inner = scope :: scopes ++ outer

variable {outer : List Scope} {n m : Nat} {t : Scopes}

/-- A scope that was just opened has none open inside. -/
theorem above_enter (s : Scopes) (kind : ScopeKind) : Above s.inner 0 (s.enter kind) := ⟨⟨kind, []⟩, [], rfl, rfl⟩

/-- Leaving the scope gives back those below it. -/
theorem Above.inner_exit (h : Above outer 0 t) : t.exit.inner = outer := by
  obtain ⟨scope, scopes, hlen, hinner⟩ := h
  rw [exit, hinner, List.eq_nil_of_length_eq_zero hlen]
  rfl

/-- One step. -/
theorem Above.apply (h : Above outer n t) {step : Step} (hs : step.depth? n = some m) :
    Above outer m (step.apply t) := by
  obtain ⟨scope, scopes, rfl, hinner⟩ := h
  cases step with
  | enter kind =>
    cases hs
    exact ⟨⟨kind, []⟩, scope :: scopes, rfl, congrArg _ hinner⟩
  | exit =>
    cases scopes with
    | nil => cases hs
    | cons next scopes =>
      cases hs
      exact ⟨next, scopes, rfl, congrArg List.tail hinner⟩
  | declare name place =>
    cases hs
    refine ⟨{ scope with names := (name, place) :: scope.names }, scopes, rfl, ?_⟩
    rw [Step.apply, declare, hinner]
    rfl
  | declareGlobal name place =>
    cases hs
    refine ⟨scope, scopes, rfl, ?_⟩
    rw [Step.apply, declareGlobal]
    split <;> exact hinner

/-- A step declares names in a scope that is open, or in the outermost one if that has no such name. -/
theorem Above.lookup_apply (h : Above outer n t) (step : Step) (name : String) :
    (step.apply t).globals.lookup name = (t.globals.lookup name).or (step.global? name) := by
  obtain ⟨scope, scopes, -, hinner⟩ := h
  cases step with
  | enter kind => exact Option.or_none.symm
  | exit => exact Option.or_none.symm
  | declare other place =>
    rw [Step.apply, declare, hinner]
    exact Option.or_none.symm
  | declareGlobal other place =>
    rw [Step.apply, declareGlobal, Step.global?]
    by_cases hn : name = other
    · subst hn
      cases hg : t.globals.lookup name <;> simp [hg]
    · split <;> simp [lookup_cons_names, hn]

/-- All steps. -/
theorem Above.run (h : Above outer n t) {steps : List Step} (hs : depth? n steps = some m) :
    Above outer m (t.run steps) ∧
      ∀ name, (t.run steps).globals.lookup name = (t.globals.lookup name).or (firstGlobal? name steps) := by
  induction steps generalizing n t with
  | nil =>
    cases hs
    exact ⟨h, fun name => Option.or_none.symm⟩
  | cons step steps ih =>
    rw [depth?, List.foldlM_cons] at hs
    obtain ⟨k, hk, hrest⟩ := Option.bind_eq_some_iff.mp hs
    obtain ⟨habove, hlookup⟩ := ih (h.apply hk) hrest
    refine ⟨habove, fun name => ?_⟩
    rw [run, List.foldl_cons, ← run, hlookup, h.lookup_apply, Option.or_assoc, firstGlobal?, firstGlobal?,
      List.findSome?_cons]
    cases step.global? name <;> rfl

/-- A name is looked for in the inner scopes first. -/
theorem lookup?_eq (s : Scopes) (name : String) :
    s.lookup? name = (s.inner.findSome? fun scope => scope.names.lookup name).or (s.globals.lookup name) := by
  simp [lookup?, toList, outermost, List.findSome?_append]

/-- **The laws of the scope stack.** After any run from the start the scopes are those of the plain stack, of which a
scope is left only if another one stays. One is open, the outermost, which is global and has lost no name that it had
before; as many scopes were opened as the run says, besides that one; and the names in sight are those that can be
found, in strictly increasing order of their bytes. Between opening a scope and leaving it, whatever is opened and left
in it, nothing changes for a lookup but this: a name that was not found is found in the outermost scope, where it was
first declared for it. -/
theorem run_lawful :
    (∀ steps : List Step,
      (start.run steps).plain = Stack.start.run steps ∧
      1 ≤ (start.run steps).depth ∧
      (start.run steps).toList.getLast? = some ⟨.global, (start.run steps).globals⟩ ∧
      (∀ more, (start.run steps).globals <:+ (start.run (steps ++ more)).globals) ∧
      (start.run steps).opened = 1 + steps.countP Step.isEnter ∧
      (∀ name, name ∈ (start.run steps).visibleNames ↔ ((start.run steps).lookup? name).isSome) ∧
      (start.run steps).visibleNames.Pairwise fun a b => Bytes.ofText a < Bytes.ofText b) ∧
    ∀ (s : Scopes) (kind : ScopeKind) (steps : List Step), Balanced steps →
      ((s.enter kind).run steps).exit.inner = s.inner ∧
      ∀ name,
        ((s.enter kind).run steps).exit.globals.lookup name = (s.globals.lookup name).or (firstGlobal? name steps) ∧
        ((s.enter kind).run steps).exit.lookup? name = (s.lookup? name).or (firstGlobal? name steps) := by
  refine ⟨fun steps => ⟨plain_run steps start, depth_pos _, ?_, fun more => ?_, opened_run steps start,
    mem_visibleNames _, visibleNames_increasing _⟩, fun s kind steps hs => ?_⟩
  · exact List.getLast?_concat
  · rw [run_append]
    exact globals_run more _
  · obtain ⟨habove, hlookup⟩ := (above_enter s kind).run hs
    have hinner := habove.inner_exit
    have hglobals (name : String) :
        ((s.enter kind).run steps).exit.globals.lookup name = (s.globals.lookup name).or (firstGlobal? name steps) :=
      hlookup name
    refine ⟨hinner, fun name => ⟨hglobals name, ?_⟩⟩
    rw [lookup?_eq, hinner, hglobals, ← Option.or_assoc, ← lookup?_eq]

/-- A declaration for the outermost scope, made in a loop inside a function: it is found after the loop, unless the
function has a name that hides it. -/
theorem run_lawful_hidden :
    Balanced [.declareGlobal "x" ⟨⟨2, 1, 9⟩, ⟨2, 2, 10⟩⟩, .enter .block, .declare "y" ⟨⟨3, 1, 19⟩, ⟨3, 2, 20⟩⟩, .exit,
      .declareGlobal "y" ⟨⟨4, 1, 29⟩, ⟨4, 2, 30⟩⟩] ∧
    ((((start.enter .function).declare "x" ⟨⟨1, 1, 0⟩, ⟨1, 2, 1⟩⟩).enter .loop).run
      [.declareGlobal "x" ⟨⟨2, 1, 9⟩, ⟨2, 2, 10⟩⟩, .enter .block, .declare "y" ⟨⟨3, 1, 19⟩, ⟨3, 2, 20⟩⟩, .exit,
        .declareGlobal "y" ⟨⟨4, 1, 29⟩, ⟨4, 2, 30⟩⟩]).exit.lookup? "x" = some ⟨⟨1, 1, 0⟩, ⟨1, 2, 1⟩⟩ ∧
    ((((start.enter .function).declare "x" ⟨⟨1, 1, 0⟩, ⟨1, 2, 1⟩⟩).enter .loop).run
      [.declareGlobal "x" ⟨⟨2, 1, 9⟩, ⟨2, 2, 10⟩⟩, .enter .block, .declare "y" ⟨⟨3, 1, 19⟩, ⟨3, 2, 20⟩⟩, .exit,
        .declareGlobal "y" ⟨⟨4, 1, 29⟩, ⟨4, 2, 30⟩⟩]).exit.lookup? "y" = some ⟨⟨4, 1, 29⟩, ⟨4, 2, 30⟩⟩ :=
  ⟨by decide, ((run_lawful.2 _ .loop _ (by decide)).2 "x").2.trans (by decide),
    ((run_lawful.2 _ .loop _ (by decide)).2 "y").2.trans (by decide)⟩

end Vernacular.Scopes
