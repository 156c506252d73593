import Mathlib.Data.Set.List
import WhileLang.CommandLine
import WhileLang.Proofs.ByteOrder
import WhileLang.Proofs.Execution.Frame
import WhileLang.Proofs.ReadBack
import WhileLang.Proofs.Scope.Equality

/-!
The state dump. At the end of a run no name is bound twice and every name is bound to a value, so
sorting by the names leaves one line for each name, and the lines do not depend on the order in
which the bindings are enumerated before they are sorted.
-/

namespace WhileLang

theorem runSource_keeps {fuel : Nat} {source : String} {console : Console} {final : Machine}
    {Kept : Scope → Prop} (ended : (runSource fuel source console).machine? = some final)
    (empty : Kept .outermost)
    (declare : ∀ scope name value, Kept scope → Kept (scope.declare name value)) :
    Kept final.scope := by
  rw [runSource] at ended
  split at ended
  · obtain rfl := Option.some.inj ended
    exact empty
  · exact runProgram_keeps ended empty declare

theorem Outcome.exists_ending {Seen : Type} {outcome : Outcome} {see : Machine → Seen} {seen : Seen}
    (sees : outcome.machine?.map see = some seen) :
    ∃ machine, see machine = seen ∧
      outcome = outcome.error?.elim (.finished machine) (.failed · machine) := by
  obtain ⟨machine, isEnd, isSeen⟩ := Option.map_eq_some_iff.mp sees
  refine ⟨machine, isSeen, ?_⟩
  cases outcome <;> cases isEnd <;> rfl

namespace Value

theorem writeDecimal_head (x : Decimal) : (layout.writeDecimal x).head? ≠ some '<' := by
  obtain ⟨numeral, isText, _⟩ := @Layout.reads_writeDecimal layout rfl rfl x
  obtain ⟨c, rest, isCons, starts⟩ :=
    Lexicon.numeral_head (List.mem_cons_self ..) numeral.matches_text
  rw [isText, isCons, List.head?_cons, ne_eq, Option.some.injEq]
  rintro rfl
  revert starts
  decide

theorem text_ne_scope (value : Value) : value.text ≠ "<scope>" := by
  suffices starts : value.text.toList.head? ≠ some '<' by
    intro isScope
    rw [isScope] at starts
    exact starts rfl
  cases value with
  | boolean value => cases value <;> decide
  | number value =>
      simp only [text, Layout.write]
      -- In this order: undefined, negative, infinite and finite numbers.
      split
      · decide
      · split
        · simp
        · split
          · decide
          · rw [String.toList_ofList]
            exact writeDecimal_head _

end Value

namespace Scope

variable {scope : Scope}

def byName (order : List (String × Binding)) : List (String × Binding) :=
  order.mergeSort fun first second => first.1 ≤ second.1

theorem byName_perm (order : List (String × Binding)) : (byName order).Perm order :=
  List.mergeSort_perm order _

theorem pairwise_byName (order : List (String × Binding)) :
    (byName order).Pairwise fun first second => first.1 ≤ second.1 := by
  have isSorted := @List.pairwise_mergeSort _
    (fun first second : String × Binding => decide (first.1 ≤ second.1))
    (fun first second third => by simpa using le_trans)
    (fun first second => by simpa using le_total first.1 second.1) order
  simpa [byName] using isSorted

/-- Two bindings of one name are the same, so nothing is left of the order of the enumeration. -/
theorem Distinct.byName_eq (distinct : scope.Distinct) {order : List (String × Binding)}
    (enumerates : order.Perm scope.entries) : byName order = byName scope.entries := by
  refine List.Perm.eq_of_pairwise ?_ (pairwise_byName order) (pairwise_byName scope.entries)
    ((byName_perm order).trans (enumerates.trans (byName_perm scope.entries).symm))
  intro first second isFirst isSecond upward downward
  have sameName : first.1 = second.1 := le_antisymm upward downward
  have found := distinct.mem_entries_iff.mp
    (enumerates.mem_iff.mp ((byName_perm order).mem_iff.mp isFirst))
  have alsoFound := distinct.mem_entries_iff.mp ((byName_perm scope.entries).mem_iff.mp isSecond)
  rw [sameName] at found
  exact Prod.ext sameName (Option.some.inj (found.symm.trans alsoFound))

theorem Distinct.increasing_byName (distinct : scope.Distinct) :
    (byName scope.entries).Pairwise fun first second => first.1 < second.1 := by
  have sortedNames := ((byName_perm scope.entries).map Prod.fst).nodup_iff.mpr distinct
  refine ((pairwise_byName scope.entries).and (List.pairwise_map.mp sortedNames)).imp ?_
  rintro first second ⟨upward, apart⟩
  exact lt_of_le_of_ne upward apart

end Scope

namespace CommandLine

def ended (lines : List String) : String := String.join (lines.map (· ++ "\n"))

theorem ended_append (lines others : List String) :
    ended (lines ++ others) = ended lines ++ ended others := by
  rw [ended, List.map_append, String.join_append]
  rfl

theorem text_eq_ended (console : Console) : console.text = ended console.lines.toList := by
  rw [Console.text, ← Array.foldl_toList, ended, String.join, List.foldl_map]
  simp only [String.append_assoc]

def dumpOf (order : List (String × Binding)) : String :=
  String.join ((Scope.byName order).map dumpLine)

theorem dump_eq_dumpOf (scope : Scope) : dump scope = dumpOf scope.entries := rfl

def dumpText (entry : String × Value) : String := entry.1 ++ " = " ++ entry.2.text

/-- The names that a scope binds, each once and in the order of their bytes, with their values. -/
structure Listing (scope : Scope) (values : List (String × Value)) : Prop where
  names : ∀ name, name ∈ values.map Prod.fst ↔ scope.contains name = true
  final : ∀ entry ∈ values, scope.get? entry.1 = some (.value entry.2)
  increasing : values.Pairwise fun first second => Text.bytes first.1 < Text.bytes second.1
  shown : ∀ entry ∈ values, entry.2.text ≠ "<scope>"

theorem exists_listing {scope : Scope} (plain : scope.Plain) (distinct : scope.Distinct) :
    ∃ values, Listing scope values ∧
      Scope.byName scope.entries = values.map (Prod.map id .value) := by
  have isValues : Scope.byName scope.entries ∈
      Set.range (List.map (Prod.map id Binding.value)) := by
    rw [Set.range_list_map]
    intro entry isMember
    obtain ⟨value, isValue⟩ := plain.2 entry ((Scope.byName_perm _).mem_iff.mp isMember)
    exact ⟨(entry.1, value), Prod.ext rfl isValue.symm⟩
  obtain ⟨values, isSorted⟩ := isValues
  have perm := Scope.byName_perm scope.entries
  have increasing := distinct.increasing_byName
  rw [← isSorted] at perm increasing
  refine ⟨values, ⟨?_, ?_, ?_, fun entry _ => entry.2.text_ne_scope⟩, isSorted.symm⟩
  · intro name
    have names := perm.map Prod.fst
    rw [List.map_map] at names
    exact names.mem_iff.trans Scope.mem_names_iff
  · intro entry isMember
    exact distinct.mem_entries_iff.mp (perm.mem_iff.mp (List.mem_map_of_mem isMember))
  · exact (List.pairwise_map.mp increasing).imp Text.bytes_lt_bytes_iff.mpr

theorem dumpOf_eq_ended {order : List (String × Binding)} {values : List (String × Value)}
    (isSorted : Scope.byName order = values.map (Prod.map id .value)) :
    dumpOf order = ended (values.map dumpText) := by
  rw [dumpOf, isSorted, ended, List.map_map, List.map_map]
  rfl

/-- The request is to run the source text, which it holds itself or which is held by its file. -/
inductive Runs (dumpsState : Bool) (source : String) : Request → Option String → Prop
  | text (file? : Option String) : Runs dumpsState source (.run false dumpsState source) file?
  | file (path : String) : Runs dumpsState source (.run true dumpsState path) (some source)

theorem Runs.reply_eq {dumpsState : Bool} {source : String} {request : Request}
    {file? : Option String} (runs : Runs dumpsState source request file?) (fuel : Nat) :
    reply fuel file? (some request) = runReply fuel dumpsState source := by
  cases runs <;> rfl

theorem runReply_of_finished {fuel : Nat} {dumpsState : Bool} {source : String} {machine : Machine}
    (finished : runSource fuel source {} = .finished machine) :
    runReply fuel dumpsState source = some {
      code := 0
      output := ended machine.console.lines.toList ++
        if dumpsState then dump machine.scope else "" } := by
  rw [runReply, finished, ← text_eq_ended]

theorem runReply_of_failed {fuel : Nat} {dumpsState : Bool} {source : String} {error : Error}
    {machine : Machine} (failed : runSource fuel source {} = .failed error machine) :
    runReply fuel dumpsState source = some {
      code := 1
      output := ended machine.console.lines.toList
      errors := error.message ++ "\n" } := by
  rw [runReply, failed, ← text_eq_ended]

/-- A run that succeeds prints its own lines and then, if asked to, its final values by name, in
whatever order these are enumerated. A run that fails prints its own lines only. -/
theorem reply_dumps_state {dumpsState : Bool} {source : String} {request : Request}
    {file? : Option String} (runs : Runs dumpsState source request file?) (fuel : Nat) :
    (∀ machine, runSource fuel source {} = .finished machine →
      ∃ values, Listing machine.scope values ∧
        (∀ order, order.Perm machine.scope.entries → dumpOf order = ended (values.map dumpText)) ∧
        reply fuel file? (some request) = some {
          code := 0
          output := ended (machine.console.lines.toList ++
            if dumpsState then values.map dumpText else []) }) ∧
    ∀ error machine, runSource fuel source {} = .failed error machine →
      reply fuel file? (some request) = some {
        code := 1
        output := ended machine.console.lines.toList
        errors := error.message ++ "\n" } := by
  rw [runs.reply_eq]
  refine ⟨fun machine finished => ?_, fun error machine => runReply_of_failed⟩
  have isEnd : (runSource fuel source {}).machine? = some machine := by rw [finished]; rfl
  have plain := runSource_keeps isEnd Scope.plain_outermost fun _ name value plain =>
    plain.declare name value
  have distinct := runSource_keeps isEnd Scope.distinct_outermost fun _ name value distinct =>
    distinct.bind name (.value value)
  obtain ⟨values, listing, isSorted⟩ := exists_listing plain distinct
  refine ⟨values, listing, ?_, ?_⟩
  · intro order enumerates
    exact dumpOf_eq_ended ((distinct.byName_eq enumerates).trans isSorted)
  · rw [runReply_of_finished finished, dump_eq_dumpOf, dumpOf_eq_ended isSorted, ended_append]
    cases dumpsState <;> rfl

theorem reply_dumps_state_sorted :
    reply 4 none (some (.run false true "let b = 1; let a = 2; print a;")) =
      some { code := 0, output := "2\na = 2\nb = 1\n" } ∧
    reply 4 (some "let b = 1; print b; print c;") (some (.run true true "failing")) =
      some {
        code := 1
        output := "1\n"
        errors := "Error on line 1: ReferenceError: c is not defined.\n" } := by
  constructor
  · let source := "let b = 1; let a = 2; print a;"
    have final : (runSource 4 source {}).error? = none ∧
        (runSource 4 source {}).machine?.map
          (fun machine => (machine.scope.entries, machine.console.lines)) =
        some ([("b", .value (.number 1)), ("a", .value (.number 2))], #["2"]) := by
      decide +kernel
    obtain ⟨machine, isFinal, isEnding⟩ := Outcome.exists_ending final.2
    obtain ⟨isEntries, isLines⟩ := Prod.mk.inj isFinal
    rw [final.1] at isEnding
    have runs : Runs true source (.run false true source) none := .text none
    obtain ⟨values, _, canonical, isReply⟩ := (reply_dumps_state runs 4).1 machine isEnding
    -- Any order will do, so take the one that is sorted already.
    have dumped := canonical [("a", .value (.number 2)), ("b", .value (.number 1))]
      (by rw [isEntries]; exact .swap ..)
    rw [dumpOf, Scope.byName, List.mergeSort_of_pairwise (by decide)] at dumped
    have output : ended ["2"] ++ String.join ([("a", .value (.number 2)),
        ("b", .value (.number 1))].map dumpLine) = "2\na = 2\nb = 1\n" := by decide +kernel
    rw [isReply, isLines, ended_append, if_pos rfl, ← dumped, output]
  · let source := "let b = 1; print b; print c;"
    have final : (runSource 4 source {}).error? =
          some { line := 1, fault := .unknownVariable "c" } ∧
        (runSource 4 source {}).machine?.map (·.console.lines) = some #["1"] := by
      decide +kernel
    obtain ⟨machine, isLines, isEnding⟩ := Outcome.exists_ending final.2
    rw [final.1] at isEnding
    have runs : Runs true source (.run true true "failing") (some source) := .file "failing"
    rw [(reply_dumps_state runs 4).2 _ machine isEnding, isLines]
    rfl

end CommandLine

end WhileLang
