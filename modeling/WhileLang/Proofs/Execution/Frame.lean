import WhileLang.Proofs.Execution.StraightLine
import WhileLang.Proofs.Parse.Outcome
import WhileLang.Proofs.Scope

/-!
What a run leaves as it was. Running a statement binds the names that it declares and rebinds those
that it declares or assigns, always to values; the parent and all other bindings stay. So the scope
of a program, which begins empty, is at every moment a plain map from names to values.
-/

namespace WhileLang

variable {program : List Statement}

def Declares (program : List Statement) (name : String) : Prop :=
  ∃ value line, (Statement.declare name value line).Occurs program

def Assigns (program : List Statement) (name : String) : Prop :=
  ∃ value line, (Statement.assign name value line).Occurs program

structure Framed (program : List Statement) (before after : Scope) : Prop where
  parent : after.parent? = before.parent?
  kept : ∀ name, before.contains name = true → after.contains name = true
  fresh : ∀ name, after.contains name = true →
    before.contains name = true ∨ Declares program name
  untouched : ∀ name, ¬ Declares program name → ¬ Assigns program name →
    after.get? name = before.get? name
  nested : ∀ name inner, after.get? name = some (.scope inner) →
    before.get? name = some (.scope inner)

def Scope.Plain (scope : Scope) : Prop :=
  scope.parent? = none ∧ ∀ entry ∈ scope.entries, ∃ value, entry.2 = .value value

theorem Framed.refl (program : List Statement) (scope : Scope) : Framed program scope scope where
  parent := rfl
  kept _ bound := bound
  fresh _ bound := .inl bound
  untouched _ _ _ := rfl
  nested _ _ found := found

theorem Framed.trans {before middle after : Scope} (first : Framed program before middle)
    (second : Framed program middle after) : Framed program before after where
  parent := second.parent.trans first.parent
  kept name bound := second.kept name (first.kept name bound)
  fresh name bound := (second.fresh name bound).elim (first.fresh name) .inr
  untouched name notDeclared notAssigned :=
    (second.untouched name notDeclared notAssigned).trans
      (first.untouched name notDeclared notAssigned)
  nested name inner found := first.nested name inner (second.nested name inner found)

theorem framed_declare {scope : Scope} {name : String} (value : Value)
    (target : Declares program name ∨ Assigns program name ∧ scope.contains name = true) :
    Framed program scope (scope.declare name value) where
  parent := Scope.parent?_bind scope
  kept other bound := by
    rw [Scope.contains, Scope.declare, Scope.get?_bind]
    split
    · rfl
    · exact bound
  fresh other bound := by
    rw [Scope.contains, Scope.declare, Scope.get?_bind] at bound
    split at bound
    · rename_i isName
      subst isName
      exact target.symm.imp_left And.right
    · exact .inl bound
  untouched other notDeclared notAssigned := by
    rw [Scope.declare, Scope.get?_bind, if_neg]
    rintro rfl
    exact target.elim notDeclared fun assigned => notAssigned assigned.1
  nested other inner found := by
    rw [Scope.declare, Scope.get?_bind] at found
    split at found
    · cases found
    · exact found

theorem Scope.Plain.declare {scope : Scope} (plain : scope.Plain) (name : String) (value : Value) :
    (scope.declare name value).Plain := by
  refine ⟨(parent?_bind scope).trans plain.1, ?_⟩
  intro entry isMember
  rcases mem_entries_of_bind isMember with rfl | isMember
  · exact ⟨value, rfl⟩
  · exact plain.2 entry isMember

/-- The scope changes only by binding the target of a declaration or an assignment to a value, and
an assignment only if its target is bound. -/
theorem Statement.effect_scope {statement : Statement} {machine next : Machine}
    (occurs : statement.Occurs program) (isEffect : statement.effect machine = .ok next) :
    next.scope = machine.scope ∨
      ∃ name value, next.scope = machine.scope.declare name value ∧
        (Declares program name ∨ Assigns program name ∧ machine.scope.contains name = true) := by
  cases statement with
  | declare name value line =>
      obtain ⟨result, _, isNext⟩ := Parse.bind_eq_ok_iff.mp isEffect
      obtain rfl := Parse.pure_eq_ok_iff.mp isNext
      exact .inr ⟨name, result, rfl, .inl ⟨value, line, occurs⟩⟩
  | assign name value line =>
      rw [effect] at isEffect
      split at isEffect
      · rename_i bound
        obtain ⟨result, _, isNext⟩ := Parse.bind_eq_ok_iff.mp isEffect
        obtain rfl := Parse.pure_eq_ok_iff.mp isNext
        exact .inr ⟨name, result, rfl, .inr ⟨⟨value, line, occurs⟩, bound⟩⟩
      · cases isEffect
  | print value line =>
      obtain ⟨result, _, isNext⟩ := Parse.bind_eq_ok_iff.mp isEffect
      split at isNext
      · obtain rfl := Parse.pure_eq_ok_iff.mp isNext
        exact .inl rfl
      · cases isNext
  | branch condition whenTrue whenFalse line =>
      obtain rfl := Except.ok.inj isEffect
      exact .inl rfl
  | loop condition body line =>
      obtain rfl := Except.ok.inj isEffect
      exact .inl rfl

theorem Passes.scope {machine later : Machine} (passes : Passes program machine later)
    (Keeps : Scope → Scope → Prop) (refl : ∀ scope, Keeps scope scope)
    (trans : ∀ before middle after, Keeps before middle → Keeps middle after → Keeps before after)
    (declare : ∀ scope name value,
      Declares program name ∨ Assigns program name ∧ scope.contains name = true →
        Keeps scope (scope.declare name value)) :
    Keeps machine.scope later.scope := by
  obtain ⟨path, sources, events, finished⟩ := passes
  induction path generalizing machine with
  | nil =>
      have isLater := Outcome.finished.inj finished
      rw [isLater]
      exact refl _
  | cons first rest ih =>
      obtain ⟨simple, occurs⟩ := sources first List.mem_cons_self
      rw [executeBlock, executeAll, execute_of_simple simple, Statement.ending] at finished
      cases isEffect : first.effect (machine.record (.statementStarted first.line)) with
      | error error =>
          rw [isEffect] at finished
          cases finished
      | ok next =>
          rw [isEffect] at finished
          have others := ih (fun other isMember =>
            sources other (List.mem_cons_of_mem first isMember)) finished
          refine trans machine.scope next.scope later.scope ?_ others
          rcases Statement.effect_scope occurs isEffect with same | ⟨name, value, isNext, target⟩
          · rw [same]
            exact refl machine.scope
          · rw [isNext]
            exact declare machine.scope name value target

theorem Passes.framed {machine later : Machine} (passes : Passes program machine later) :
    Framed program machine.scope later.scope :=
  passes.scope (Framed program) (.refl program) (fun _ _ _ => .trans) fun _ _ value =>
    framed_declare value

theorem Passes.keeps {machine later : Machine} {Kept : Scope → Prop}
    (passes : Passes program machine later)
    (declare : ∀ scope name value, Kept scope → Kept (scope.declare name value))
    (kept : Kept machine.scope) : Kept later.scope :=
  passes.scope (fun before after => Kept before → Kept after) (fun _ => id)
    (fun _ _ _ first second => second ∘ first) (fun scope name value _ => declare scope name value)
    kept

theorem Passes.plain {machine later : Machine} (passes : Passes program machine later)
    (plain : machine.scope.Plain) : later.scope.Plain :=
  passes.keeps (fun _ name value plain => plain.declare name value) plain

theorem executeBlock_singleton (fuel : Nat) (statement : Statement) (machine : Machine) :
    executeBlock fuel [statement] machine = execute fuel statement machine := by
  rw [executeBlock, executeAll]
  cases execute fuel statement machine <;> rfl

def Machine.start (program : List Statement) (console : Console) : Machine :=
  { console, events := #[.programStarted program.length] }

theorem Scope.plain_outermost : Plain outermost := ⟨rfl, nofun⟩

theorem moment_plain (program : List Statement) (console : Console) (count : Nat) :
    (moment program (.start program console) count).machine.scope.Plain :=
  (moment_accounted program (.start program console) count).passes.plain Scope.plain_outermost

theorem executeBlock_plain {fuel : Nat} {console : Console} {final : Machine}
    (ended : (executeBlock fuel program (.start program console)).machine? = some final) :
    final.scope.Plain :=
  (executeBlock_accounted ended).1.plain Scope.plain_outermost

theorem runProgram_eq (fuel : Nat) (program : List Statement) (console : Console) :
    runProgram fuel program console =
      match executeBlock fuel program (.start program console) with
      | .finished machine => .finished (machine.record (.programFinished machine.scope.size))
      | .failed error machine => .failed error machine
      | .unfinished => .unfinished := rfl

theorem runProgram_scope (fuel : Nat) (program : List Statement) (console : Console) :
    (runProgram fuel program console).machine?.map (·.scope) =
      (executeBlock fuel program (.start program console)).machine?.map (·.scope) := by
  rw [runProgram_eq]
  cases executeBlock fuel program (.start program console) <;> rfl

theorem runProgram_error? (fuel : Nat) (program : List Statement) (console : Console) :
    (runProgram fuel program console).error? =
      (executeBlock fuel program (.start program console)).error? := by
  rw [runProgram_eq]
  cases executeBlock fuel program (.start program console) <;> rfl

theorem runProgram_keeps {fuel : Nat} {console : Console} {final : Machine} {Kept : Scope → Prop}
    (ended : (runProgram fuel program console).machine? = some final) (empty : Kept .outermost)
    (declare : ∀ scope name value, Kept scope → Kept (scope.declare name value)) :
    Kept final.scope := by
  have sameScope := runProgram_scope fuel program console
  rw [ended] at sameScope
  obtain ⟨last, lastEnded, isScope⟩ := Option.map_eq_some_iff.mp sameScope.symm
  have kept : Kept last.scope := (executeBlock_accounted lastEnded).1.keeps declare empty
  rw [isScope] at kept
  exact kept

theorem runProgram_plain {fuel : Nat} {console : Console} {final : Machine}
    (ended : (runProgram fuel program console).machine? = some final) : final.scope.Plain :=
  runProgram_keeps ended Scope.plain_outermost fun _ name value plain => plain.declare name value

/-- Running a statement, whether it succeeds or fails, keeps the frame of the scope. The scope of a
program is plain at every moment of its run, and so at its end. -/
theorem execute_framed :
    (∀ fuel statement machine final, (execute fuel statement machine).machine? = some final →
      Framed [statement] machine.scope final.scope) ∧
    ∀ program console,
      (∀ count, (moment program (.start program console) count).machine.scope.Plain) ∧
      ∀ fuel final, (runProgram fuel program console).machine? = some final →
        final.scope.Plain := by
  constructor
  · intro fuel statement machine final ended
    rw [← executeBlock_singleton] at ended
    exact (executeBlock_accounted ended).1.framed
  · intro program console
    exact ⟨moment_plain program console, fun fuel final => runProgram_plain⟩

theorem execute_framed_nested :
    ∃ statement scope final,
      (execute 4 statement { scope }).machine? = some final ∧
      final.scope.get? "x" = some (.value (.number 2)) ∧
      scope.get? "n" = some (.scope (.within .outermost)) ∧ scope.parent? = some .outermost ∧
      Framed [statement] scope final.scope ∧
      (moment counting (.start counting {}) 7).machine.scope.Plain := by
  let statement : Statement := counting[1]
  let scope : Scope :=
    .withScope "n" (.within .outermost) (.withValue "x" (.number 0) (.within .outermost))
  have bound : (execute 4 statement { scope }).machine?.map (·.scope.get? "x") =
      some (some (.value (.number 2))) := by decide +kernel
  obtain ⟨final, ended, isBound⟩ := Option.map_eq_some_iff.mp bound
  exact ⟨statement, scope, final, ended, isBound, rfl, rfl,
    execute_framed.1 4 statement { scope } final ended, (execute_framed.2 counting {}).1 7⟩

end WhileLang
