import WhileLang.Proofs.Paths

/-!
What occurs in a program: its statements at any depth, and the expressions inside them.
-/

namespace WhileLang

inductive Statement.Occurs (statement : Statement) : List Statement → Prop
  | here {program} : statement ∈ program → Occurs statement program
  | body {outer program} : outer ∈ program → Occurs statement outer.body →
      Occurs statement program
  | otherwise {outer program} : outer ∈ program → Occurs statement outer.otherwise →
      Occurs statement program

theorem Statement.Occurs.inside {inner outer : Statement} {program : List Statement}
    (occurs : outer.Occurs program)
    (isInside : inner ∈ outer.body ∨ inner ∈ outer.otherwise) : inner.Occurs program := by
  induction occurs with
  | here isMember =>
      rcases isInside with inBody | inOtherwise
      · exact .body isMember (.here inBody)
      · exact .otherwise isMember (.here inOtherwise)
  | body isMember _ ih => exact .body isMember ih
  | otherwise isMember _ ih => exact .otherwise isMember ih

theorem Statement.Occurs.exists_way {statement : Statement} {program : List Statement}
    (occurs : statement.Occurs program) :
    ∃ outer ∈ program, ∃ way, ∀ steps, statement.Path steps → outer.Path (way ++ steps) := by
  induction occurs with
  | here isMember => exact ⟨statement, isMember, [], fun steps path => path⟩
  | body isMember _ ih =>
      obtain ⟨inner, isInside, way, leads⟩ := ih
      exact ⟨_, isMember, .body :: way, fun steps path => .body isInside (leads steps path)⟩
  | otherwise isMember _ ih =>
      obtain ⟨inner, isInside, way, leads⟩ := ih
      exact ⟨_, isMember, .otherwise :: way,
        fun steps path => .otherwise isInside (leads steps path)⟩

namespace Expression

inductive Occurs (part : Expression) : Expression → Prop
  | here : Occurs part part
  | left {op left right line} : Occurs part left → Occurs part (binary op left right line)
  | right {op left right line} : Occurs part right → Occurs part (binary op left right line)

def OccursIn (part : Expression) (program : List Statement) : Prop :=
  ∃ statement : Statement, statement.Occurs program ∧ part.Occurs statement.expression

end Expression

end WhileLang
