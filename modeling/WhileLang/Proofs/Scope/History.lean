import Mathlib.Data.Set.Card
import WhileLang.Proofs.Scope.Equality

/-!
Scopes as finite maps. A scope is begun empty, inside another scope or from a list of values, and is
then written to; what it holds is the last binding written to each name, and nothing else of its
history can be told from it.
-/

namespace WhileLang.Scope

inductive Origin where
  | empty
  | inside (parent : Scope)
  | values (pairs : List (String × Value))

inductive Write where
  | declare (name : String) (value : Value)
  | assign (name : String) (value : Value) (line : Nat)
  | nest (name : String) (nested : Scope)

namespace Origin

def scope : Origin → Scope
  | empty => outermost
  | inside parent => within parent
  | values pairs => ofList pairs

def parent? : Origin → Option Scope
  | inside parent => some parent
  | _ => none

def bindings : Origin → List (String × Binding)
  | values pairs => pairs.map fun pair => (pair.1, .value pair.2)
  | _ => []

end Origin

namespace Write

def name : Write → String
  | declare name _ => name
  | assign name _ _ => name
  | nest name _ => name

def binding : Write → Binding
  | declare _ value => .value value
  | assign _ value _ => .value value
  | nest _ nested => .scope nested

def perform : Write → Scope → Except Error Scope
  | declare name value, scope => .ok (scope.declare name value)
  | assign name value line, scope => scope.assign name value line
  | nest name nested, scope => .ok (scope.bind name (.scope nested))

end Write

/-- A write that fails leaves the scope as it was. -/
def write (scope : Scope) (write : Write) : Scope :=
  match write.perform scope with
  | .ok changed => changed
  | .error _ => scope

def after (scope : Scope) (writes : List Write) : Scope := writes.foldl write scope

def written (scope : Scope) : List Write → List (String × Binding)
  | [] => []
  | write :: rest =>
      match write.perform scope with
      | .ok changed => (write.name, write.binding) :: changed.written rest
      | .error _ => scope.written rest

variable {scope : Scope}

theorem assign_eq_error_iff {name : String} {value : Value} {line : Nat} {error : Error} :
    scope.assign name value line = .error error ↔
      scope.get? name = none ∧ error = { line, fault := .unknownVariable name } := by
  rw [assign, contains]
  cases scope.get? name with
  | none => simp [eq_comm]
  | some binding => simp

theorem perform_cases (write : Write) (scope : Scope) :
    write.perform scope = .ok (scope.bind write.name write.binding) ∨
      ∃ error, write.perform scope = .error error := by
  cases write with
  | declare name value | nest name nested => exact .inl rfl
  | assign name value line =>
      simp only [Write.perform, assign]
      split
      · exact .inl rfl
      · exact .inr ⟨_, rfl⟩

theorem write_cases (write : Write) (scope : Scope) :
    (scope.write write = scope.bind write.name write.binding ∧ ∀ rest,
      scope.written (write :: rest) =
        (write.name, write.binding) :: (scope.write write).written rest) ∨
    (scope.write write = scope ∧ ∀ rest, scope.written (write :: rest) = scope.written rest) := by
  rcases perform_cases write scope with performed | ⟨error, performed⟩
  · have isBind : scope.write write = scope.bind write.name write.binding := by
      rw [Scope.write, performed]
    refine .inl ⟨isBind, fun rest => ?_⟩
    rw [written, performed, isBind]
  · refine .inr ⟨?_, fun rest => ?_⟩
    · rw [Scope.write, performed]
    · rw [written, performed]

theorem after_append (writes later : List Write) :
    scope.after (writes ++ later) = (scope.after writes).after later := List.foldl_append

theorem written_append (writes later : List Write) :
    scope.written (writes ++ later) =
      scope.written writes ++ (scope.after writes).written later := by
  induction writes generalizing scope with
  | nil => rfl
  | cons write rest ih =>
      have next : scope.after (write :: rest) = (scope.write write).after rest := rfl
      rw [List.cons_append, next]
      rcases write_cases write scope with ⟨_, isWritten⟩ | ⟨isSame, isWritten⟩
      · rw [isWritten, isWritten, ih, List.cons_append]
      · rw [isWritten, isWritten, isSame, ih]

theorem get?_after (scope : Scope) (writes : List Write) (name : String) :
    (scope.after writes).get? name =
      ((scope.written writes).reverse.lookup name).or (scope.get? name) := by
  induction writes generalizing scope with
  | nil => rfl
  | cons write rest ih =>
      have next : scope.after (write :: rest) = (scope.write write).after rest := rfl
      rw [next, ih]
      rcases write_cases write scope with ⟨isBind, isWritten⟩ | ⟨isSame, isWritten⟩
      · rw [isWritten, List.reverse_cons, List.lookup_append, Option.or_assoc]
        rw [isBind, get?_bind]
        by_cases isName : write.name = name
        · simp [isName]
        · have differs : (name == write.name) = false := beq_false_of_ne (Ne.symm isName)
          simp [isName, List.lookup_cons, differs]
      · rw [isWritten, isSame]

theorem after_keeps {motive : Scope → Prop} {writes : List Write} (holds : motive scope)
    (kept : ∀ write ∈ writes, ∀ before, motive before →
      motive (before.bind write.name write.binding)) : motive (scope.after writes) := by
  induction writes generalizing scope with
  | nil => exact holds
  | cons write rest ih =>
      rw [List.forall_mem_cons] at kept
      refine ih ?_ kept.2
      rcases write_cases write scope with ⟨isBind, _⟩ | ⟨isSame, _⟩
      · rw [isBind]
        exact kept.1 scope holds
      · rw [isSame]
        exact holds

theorem parent?_after (scope : Scope) (writes : List Write) :
    (scope.after writes).parent? = scope.parent? := by
  refine after_keeps (motive := fun later => later.parent? = scope.parent?) rfl ?_
  intro write _ before sameParent
  rw [parent?_bind, sameParent]

theorem Distinct.after (distinct : scope.Distinct) (writes : List Write) :
    (scope.after writes).Distinct :=
  after_keeps distinct fun write _ _ before => before.bind write.name write.binding

theorem distinctBinding_after {writes : List Write}
    (inside : ∀ name, DistinctBinding (scope.get? name))
    (new : ∀ write ∈ writes, DistinctBinding (some write.binding)) :
    ∀ name, DistinctBinding ((scope.after writes).get? name) := by
  refine after_keeps (motive := fun later => ∀ name, DistinctBinding (later.get? name)) inside ?_
  intro write isMember before inside name
  rw [get?_bind]
  split
  · exact new write isMember
  · exact inside name

namespace Origin

def given : Origin → List Write
  | values pairs => pairs.map fun pair => .declare pair.1 pair.2
  | _ => []

def start : Origin → Scope
  | inside parent => within parent
  | _ => outermost

theorem scope_eq (origin : Origin) : origin.scope = origin.start.after origin.given := by
  cases origin with
  | empty | inside parent => rfl
  | values pairs =>
      simp only [scope, ofList, start, given, after, List.foldl_map]
      rfl

theorem bindings_eq (origin : Origin) : origin.bindings = origin.start.written origin.given := by
  cases origin with
  | empty | inside parent => rfl
  | values pairs =>
      simp only [bindings, start, given]
      generalize outermost = scope
      induction pairs generalizing scope with
      | nil => rfl
      | cons pair rest ih => exact congrArg (_ :: ·) (ih (scope.declare pair.1 pair.2))

theorem get?_start (origin : Origin) (name : String) : origin.start.get? name = none := by
  cases origin <;> rfl

theorem parent?_start (origin : Origin) : origin.start.parent? = origin.parent? := by
  cases origin <;> rfl

theorem distinct_start (origin : Origin) : origin.start.Distinct := by
  cases origin with
  | inside parent => exact distinct_within parent
  | empty | values pairs => exact distinct_outermost

theorem after_eq (origin : Origin) (writes : List Write) :
    origin.scope.after writes = origin.start.after (origin.given ++ writes) := by
  rw [after_append, ← scope_eq]

theorem parent?_eq (origin : Origin) (writes : List Write) :
    (origin.scope.after writes).parent? = origin.parent? := by
  rw [after_eq, parent?_after, parent?_start]

theorem distinct_after (origin : Origin) (writes : List Write) :
    (origin.scope.after writes).Distinct := by
  rw [after_eq]
  exact origin.distinct_start.after _

end Origin

/-- The scope is the map of the last binding written to each name. -/
structure MapOf (scope : Scope) (parent? : Option Scope) (written : List (String × Binding)) :
    Prop where
  get? : ∀ name, scope.get? name = written.reverse.lookup name
  contains : ∀ name, scope.contains name = true ↔ ∃ binding, scope.get? name = some binding
  value? : ∀ name value, scope.value? name = some value ↔ scope.get? name = some (.value value)
  entries : ∀ name binding, (name, binding) ∈ scope.entries ↔ scope.get? name = some binding
  once : (scope.entries.map Prod.fst).Nodup
  size : {name | scope.contains name = true}.encard = scope.size
  parent? : scope.parent? = parent?

theorem contains_iff {name : String} :
    scope.contains name = true ↔ ∃ binding, scope.get? name = some binding :=
  Option.isSome_iff_exists

theorem value?_eq_some_iff {name : String} {value : Value} :
    scope.value? name = some value ↔ scope.get? name = some (.value value) := by
  rw [value?]
  rcases scope.get? name with _ | _ | _ <;> simp

theorem Distinct.encard_eq (distinct : scope.Distinct) :
    {name | scope.contains name = true}.encard = scope.size := by
  have isNames : {name | scope.contains name = true} = scope.names.toFinset := by
    ext name
    rw [Set.mem_ofPred_eq, List.coe_toFinset, Set.mem_ofPred_eq, mem_names_iff, contains]
  rw [isNames, Set.encard_coe_eq_coe_finsetCard, List.toFinset_card_of_nodup distinct,
    length_names]

theorem Origin.mapOf_after (origin : Origin) (writes : List Write) :
    (origin.scope.after writes).MapOf origin.parent?
      (origin.bindings ++ origin.scope.written writes) where
  get? name := by
    rw [origin.after_eq, get?_after, origin.get?_start, Option.or_none, written_append,
      ← origin.scope_eq, ← origin.bindings_eq]
  contains name := contains_iff
  value? name value := value?_eq_some_iff
  entries name binding := (origin.distinct_after writes).mem_entries_iff
  once := origin.distinct_after writes
  size := (origin.distinct_after writes).encard_eq
  parent? := origin.parent?_eq writes

inductive Built : Scope → Prop
  | history (origin : Origin) (writes : List Write) :
      (∀ parent, origin.parent? = some parent → Built parent) →
      (∀ name nested, .nest name nested ∈ writes → Built nested) →
      Built (origin.scope.after writes)

theorem Origin.distinctBinding_given (origin : Origin) :
    ∀ write ∈ origin.given, DistinctBinding (some write.binding) := by
  intro write isGiven
  cases origin with
  | empty | inside parent => cases isGiven
  | values pairs =>
      obtain ⟨pair, _, rfl⟩ := List.mem_map.mp isGiven
      exact .value pair.2

theorem Built.distinctBinding (built : scope.Built) : DistinctBinding (some (.scope scope)) := by
  induction built with
  | history origin writes _ _ parentIh nestedIh =>
      refine .scope (origin.distinct_after writes) (fun name => ?_) ?_
      · rw [origin.after_eq]
        refine distinctBinding_after (fun name => ?_) (fun write isMember => ?_) name
        · rw [origin.get?_start]
          exact .unbound
        · rcases List.mem_append.mp isMember with isGiven | isMember
          · exact origin.distinctBinding_given write isGiven
          · cases write with
            | declare name value => exact .value value
            | assign name value line => exact .value value
            | nest name nested => exact nestedIh name nested isMember
      · rw [origin.parent?_eq]
        cases hasParent : origin.parent? with
        | none => exact .unbound
        | some parent => exact parentIh parent hasParent

/-- A scope is the finite map of what was written to it last, whatever else was done to it. Two
scopes are equal exactly if their parents are and every name has equal bindings in them; and if
parents and bindings are the same, only an undefined number can keep the scopes from being equal. -/
theorem built_scope_is_map :
    (∀ (origin : Origin) writes, (origin.scope.after writes).MapOf origin.parent?
      (origin.bindings ++ origin.scope.written writes)) ∧
    (∀ (scope : Scope) name value line error, scope.assign name value line = .error error ↔
      scope.get? name = none ∧ error = { line, fault := .unknownVariable name }) ∧
    (∀ (scope : Scope) name value line error, scope.assign name value line = .error error →
      scope.write (.assign name value line) = scope) ∧
    (∀ (origin other : Origin) writes otherWrites,
      (origin.scope.after writes).same (other.scope.after otherWrites) = true ↔
        Option.Rel (·.same · = true) (origin.scope.after writes).parent?
          (other.scope.after otherWrites).parent? ∧
        ∀ name, Option.Rel (·.same · = true) ((origin.scope.after writes).get? name)
          ((other.scope.after otherWrites).get? name)) ∧
    (∀ scope other : Scope, scope.Built → other.Built →
      SameBinding (scope.parent?.map .scope) (other.parent?.map .scope) →
      (∀ name, SameBinding (scope.get? name) (other.get? name)) →
        (scope.same other = true ↔ scope.isDefined = true)) := by
  refine ⟨Origin.mapOf_after, fun _ _ _ _ _ => assign_eq_error_iff, ?_, ?_, ?_⟩
  · intro scope name value line error failed
    rw [write, Write.perform, failed]
  · intro origin other writes otherWrites
    exact same_iff (origin.distinct_after writes) (other.distinct_after otherWrites)
  · intro scope other built otherBuilt parents bindings
    have equal := (SameBinding.scope bindings parents).rel_iff built.distinctBinding
      otherBuilt.distinctBinding
    rw [Option.rel_some_some, Option.all_some] at equal
    exact equal

/-- Two histories of one map, the second with an assignment that fails; and a scope that holds an
undefined number, which is not equal to itself. -/
theorem built_scope_is_map_reordered :
    (∀ name, Option.Rel (·.same · = true)
      (((Origin.values [("a", .number 1), ("b", .boolean true), ("a", .number 2)]).scope.after
        []).get? name)
      ((Origin.empty.scope.after [.declare "b" (.boolean true), .assign "a" (.number 0) 3,
        .declare "a" (.number 2)]).get? name)) ∧
    outermost.write (.assign "a" (.number 0) 3) = outermost ∧
    ∃ scope : Scope, scope.Built ∧ (scope.same scope = true ↔ scope.isDefined = true) ∧
      scope.isDefined = false := by
  obtain ⟨_, fails, kept, equal, exact⟩ := built_scope_is_map
  have sameMap : ((Origin.values [("a", .number 1), ("b", .boolean true),
      ("a", .number 2)]).scope.after []).same
        (Origin.empty.scope.after [.declare "b" (.boolean true), .assign "a" (.number 0) 3,
          .declare "a" (.number 2)]) = true := by decide +kernel
  have built : (Origin.empty.scope.after [.declare "x" (.number (0 / 0))]).Built :=
    .history .empty _ nofun (by simp)
  refine ⟨((equal _ _ _ _).mp sameMap).2, kept outermost "a" (.number 0) 3 _ rfl, _, built,
    exact _ _ built built (.refl _) fun _ => .refl _, by decide +kernel⟩

end WhileLang.Scope
