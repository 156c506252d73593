import WhileLang.Proofs.Parse.Cut

/-!
Programs that are cut off. Whatever is left of an accepted program is a program itself or ends too
early, and is reported so, unless the cut falls right behind the name that an assignment begins
with: that name is reported as the beginning of no statement.
-/

namespace WhileLang.Parse

theorem statementsWith_nil {nested : Parser Statement} (limit : Nat) :
    statementsWith nested limit [] = .ok [] := by
  cases limit <;> rfl

theorem statementsWith_cons {nested : Parser Statement} (limit : Nat) (found : Located)
    (rest : List Located) :
    statementsWith nested (limit + 1) (found :: rest) =
      nested found.line (found :: rest) >>= fun first =>
        (statementsWith nested limit first.rest).map (first.node :: ·) := by
  simp only [statementsWith]
  cases nested found.line (found :: rest) with
  | error error => rfl
  | ok first =>
      simp only [bind, Except.bind]
      cases statementsWith nested limit first.rest <;> rfl

theorem statementsWith_sign {nested : Parser Statement} (steady : ∀ line, Steady (nested line))
    (takes : TakesStatement nested) {limit : Nat} {tokens : List Located}
    (sign : Begins .equals tokens) (enough : tokens.length ≤ limit) (nodes : List Statement) :
    statementsWith nested limit tokens ≠ .ok nodes := by
  obtain ⟨line, rest, rfl⟩ := sign
  cases limit with
  | zero => simp at enough
  | succ limit =>
      intro found
      rw [statementsWith_cons, bind_eq_ok_iff] at found
      obtain ⟨first, firstParsed, _⟩ := found
      have shorter := (takes _ _ _ firstParsed).shorter
      rw [(steady line).leavesSign _ _ (by simp) firstParsed] at shorter
      omega

inductive CutProgram (tokens more : List Located)
    (short long : Except Error (List Statement)) : Prop
  | failed {error} : short = .error error → long = .error error →
      CutProgram tokens more short long
  | target {name line} : CutsTarget tokens more name line →
      short = .error ⟨line, .unexpected (.statement (.identifier name))⟩ →
      CutProgram tokens more short long
  | reached : ((∃ nodes, short = .ok nodes) ∨ ∃ line, short = .error ⟨line, .endOfInput⟩) →
      (∀ name line, CutsTarget tokens more name line → ∀ nodes, long ≠ .ok nodes) →
      CutProgram tokens more short long

theorem CutProgram.cons {taken rest more : List Located}
    {short long : Except Error (List Statement)} (cut : CutProgram rest more short long)
    (nonempty : rest ≠ []) (plain : EndsPlain taken) (node : Statement) :
    CutProgram (taken ++ rest) more (short.map (node :: ·)) (long.map (node :: ·)) := by
  cases cut with
  | failed shortFailed longFailed =>
      rw [shortFailed, longFailed]
      exact .failed rfl rfl
  | target cutsTarget shortFailed =>
      rw [shortFailed]
      exact .target (cutsTarget.append plain) rfl
  | reached shortEnds longFails =>
      refine .reached ?_ ?_
      · rcases shortEnds with ⟨nodes, rfl⟩ | ⟨line, rfl⟩
        · exact Or.inl ⟨node :: nodes, rfl⟩
        · exact Or.inr ⟨line, rfl⟩
      · intro name line cutsTarget nodes found
        obtain ⟨others, othersFound, _⟩ := map_eq_ok_iff.mp found
        exact longFails name line (cutsTarget.of_append nonempty) others othersFound

theorem statementsWith_cut {nested : Parser Statement} (steady : ∀ line, Steady (nested line))
    (takes : TakesStatement nested) {limit : Nat} {tokens more : List Located}
    (enough : (tokens ++ more).length ≤ limit) :
    CutProgram tokens more (statementsWith nested limit tokens)
      (statementsWith nested limit (tokens ++ more)) := by
  induction limit generalizing tokens with
  | zero =>
      have empty : tokens = [] := by
        rw [List.length_append] at enough
        exact List.length_eq_zero_iff.mp (by omega)
      subst tokens
      refine .reached (Or.inl ⟨[], rfl⟩) ?_
      intro name line cutsTarget
      simpa using cutsTarget.getLast?
  | succ limit ih =>
      cases tokens with
      | nil =>
          refine .reached (Or.inl ⟨[], rfl⟩) ?_
          intro name line cutsTarget
          simpa using cutsTarget.getLast?
      | cons found rest =>
          rw [List.cons_append, statementsWith_cons, statementsWith_cons, ← List.cons_append]
          cases (steady found.line).cut (found :: rest) more with
          | @parsed node others nonempty shortFound longFound =>
              have shorter : (others ++ more).length < (found :: rest ++ more).length :=
                (takes _ _ _ longFound).shorter
              obtain ⟨taken, isTokens, plain⟩ := (steady found.line).takes _ _ shortFound
              rw [shortFound, longFound, isTokens]
              exact (ih (by omega)).cons nonempty plain node
          | failed shortFailed longFailed =>
              rw [shortFailed, longFailed]
              exact .failed rfl rfl
          | target cutsTarget shortFailed _ =>
              rw [shortFailed]
              exact .target cutsTarget rfl
          | reached atEnd _ leaves =>
              refine .reached ?_ ?_
              · rcases atEnd with ⟨node, shortFound⟩ | ⟨line, shortFailed⟩
                · rw [shortFound]
                  refine Or.inl ⟨[node], ?_⟩
                  simp [bind, Except.bind, statementsWith_nil, Except.map]
                · rw [shortFailed]
                  exact Or.inr ⟨line, rfl⟩
              · intro name line cutsTarget nodes longFound
                obtain ⟨⟨node, others⟩, firstFound, othersFound⟩ := bind_eq_ok_iff.mp longFound
                obtain rfl : others = more := leaves name line cutsTarget _ firstFound
                obtain ⟨otherNodes, othersFound, _⟩ := map_eq_ok_iff.mp othersFound
                obtain ⟨_, _, _, sign⟩ := cutsTarget
                simp only [List.length_append, List.length_cons] at enough
                exact statementsWith_sign steady takes sign (by omega) otherNodes othersFound

theorem statements_cut (tokens more : List Located) :
    CutProgram tokens more (statements tokens) (statements (tokens ++ more)) := by
  have cut := statementsWith_cut (statementWithin_steady (tokens ++ more).length)
    (statementWithin_takes _) (Nat.le_refl (tokens ++ more).length)
  have within : tokens.length ≤ (tokens ++ more).length := by simp
  rwa [statementsWith_eq_statements within within] at cut

/-- A cut through an accepted program leaves a program or tokens that end too early, and is reported
as the end of the input, except right behind the name that an assignment begins with. There, and
only there, the name is reported as unexpected. -/
theorem statements_truncated {front rest : List Located} {program : List Statement}
    (accepted : statements (front ++ rest) = .ok program) :
    (∀ name line, CutsTarget front rest name line →
      statements front = .error ⟨line, .unexpected (.statement (.identifier name))⟩) ∧
    ((¬ ∃ name line, CutsTarget front rest name line) →
      (∃ nodes, statements front = .ok nodes) ∨
        ∃ line, statements front = .error ⟨line, .endOfInput⟩) := by
  cases statements_cut front rest with
  | failed _ longFailed =>
      rw [accepted] at longFailed
      cases longFailed
  | @target found foundLine cutsTarget shortFailed =>
      refine ⟨?_, fun none => absurd ⟨found, foundLine, cutsTarget⟩ none⟩
      intro name line otherTarget
      have same := cutsTarget.getLast?.symm.trans otherTarget.getLast?
      simp only [Option.some.injEq, Located.mk.injEq, Token.identifier.injEq] at same
      rw [shortFailed, same.1, same.2]
  | reached shortEnds longFails =>
      refine ⟨?_, fun _ => shortEnds⟩
      intro name line cutsTarget
      exact absurd accepted (longFails name line cutsTarget program)

theorem statements_truncated_assignment :
    statements [⟨.identifier "x", 1⟩, ⟨.equals, 1⟩, ⟨.number 1, 2⟩, ⟨.semicolon, 2⟩] =
        .ok [.assign "x" (.literal (.number 1) 2) 1] ∧
      statements [⟨.identifier "x", 1⟩] =
        .error ⟨1, .unexpected (.statement (.identifier "x"))⟩ ∧
      ((∃ nodes, statements [⟨.identifier "x", 1⟩, ⟨.equals, 1⟩] = .ok nodes) ∨
        ∃ line, statements [⟨.identifier "x", 1⟩, ⟨.equals, 1⟩] = .error ⟨line, .endOfInput⟩) := by
  have accepted : statements [⟨.identifier "x", 1⟩, ⟨.equals, 1⟩, ⟨.number 1, 2⟩,
      ⟨.semicolon, 2⟩] = .ok [.assign "x" (.literal (.number 1) 2) 1] := rfl
  have atName := @statements_truncated [⟨.identifier "x", 1⟩] _ _ accepted
  have atSign := @statements_truncated [⟨.identifier "x", 1⟩, ⟨.equals, 1⟩] _ _ accepted
  refine ⟨accepted, atName.1 "x" 1 ⟨[], rfl, endsPlain_nil, by simp⟩, atSign.2 ?_⟩
  rintro ⟨name, line, cutsTarget⟩
  have isName := cutsTarget.getLast?
  simp at isName

end WhileLang.Parse
