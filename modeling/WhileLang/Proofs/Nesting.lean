import WhileLang.Nesting
import WhileLang.Proofs.Grammar

/-!
The nesting check counts open brackets token by token, while the grammar counts how deep brackets
nest in a derivation. Both are the peak of the count over the tokens.
-/

namespace WhileLang.Nesting

open Grammar

/-- The most brackets that are open at once, for tokens that stand inside `depth` open ones. -/
def peak : Nat → List Located → Nat
  | depth, [] => depth
  | depth, found :: rest =>
      match found.token with
      | .openParen | .openBrace => peak (depth + 1) rest
      | .closeParen | .closeBrace => max depth (peak (depth - 1) rest)
      | _ => peak depth rest

theorem le_peak (depth : Nat) (tokens : List Located) : depth ≤ peak depth tokens := by
  induction tokens generalizing depth with
  | nil => exact Nat.le_refl depth
  | cons found rest ih =>
      have same := ih depth
      have deeper := ih (depth + 1)
      rw [peak]
      split <;> omega

theorem checkFrom_eq_ok_iff {depth : Nat} {tokens : List Located} (within : depth ≤ limit) :
    checkFrom depth tokens = .ok () ↔ peak depth tokens ≤ limit := by
  induction tokens generalizing depth with
  | nil => simp [checkFrom, peak, within]
  | cons found rest ih =>
      obtain ⟨token, line⟩ := found
      cases token with
      | openParen | openBrace =>
          have deeper := le_peak (depth + 1) rest
          simp only [checkFrom, peak]
          by_cases room : depth < limit
          · rw [if_pos room]
            exact ih (by omega)
          · rw [if_neg room]
            simp only [reduceCtorEq, false_iff]
            omega
      | closeParen | closeBrace =>
          simp only [checkFrom, peak]
          rw [ih (by omega)]
          omega
      | _ => exact ih within

theorem peak_of_ranked {rank depth : Nat} {front : List Located} {node : Expression}
    (derivation : Ranked rank depth front node) (start : Nat) (rest : List Located) :
    peak start (front ++ rest) = max (start + depth) (peak start rest) := by
  induction derivation generalizing start rest with
  | number | boolean | reference =>
      have least := le_peak start rest
      simp only [List.cons_append, List.nil_append, peak]
      omega
  | group _ ih =>
      simp only [List.cons_append, List.append_assoc, List.nil_append, peak, ih,
        Nat.add_sub_cancel]
      omega
  | operand _ ih => exact ih start rest
  | join _ _ _ leftIh rightIh =>
      simp only [List.cons_append, List.append_assoc, peak, leftIh, rightIh]
      omega

theorem peak_of_derives {phrase : Phrase} {depth : Nat} {front : List Located}
    (derivation : Derives phrase depth front) (start : Nat) (rest : List Located) :
    peak start (front ++ rest) = max (start + depth) (peak start rest) := by
  induction derivation generalizing start rest with
  | declare valueDerived | assign valueDerived | print valueDerived =>
      simp only [List.cons_append, List.append_assoc, List.nil_append, peak,
        peak_of_ranked valueDerived]
  | branch testDerived _ _ trueIh falseIh =>
      simp only [List.cons_append, List.append_assoc, peak, peak_of_ranked testDerived, trueIh,
        falseIh, Nat.add_sub_cancel]
      omega
  | loop testDerived _ bodyIh =>
      simp only [List.cons_append, List.append_assoc, peak, peak_of_ranked testDerived, bodyIh,
        Nat.add_sub_cancel]
      omega
  | nil | withoutElse =>
      have least := le_peak start rest
      rw [List.nil_append]
      omega
  | cons _ _ firstIh othersIh =>
      rw [List.append_assoc, firstIh, othersIh]
      omega
  | block _ ih =>
      simp only [List.cons_append, List.append_assoc, List.nil_append, peak, ih,
        Nat.add_sub_cancel]
      omega
  | elseBlock _ ih | elseIf _ ih =>
      simp only [List.cons_append, peak, ih]

theorem peak_of_program {depth : Nat} {tokens : List Located} {program : List Statement}
    (derivation : Program depth tokens program) : peak 0 tokens = depth := by
  have whole := peak_of_derives derivation 0 []
  rw [List.append_nil, peak] at whole
  omega

theorem check_eq_ok_iff {depth : Nat} {tokens : List Located} {program : List Statement}
    (derivation : Program depth tokens program) : check tokens = .ok () ↔ depth ≤ limit := by
  rw [check, checkFrom_eq_ok_iff (Nat.zero_le limit), peak_of_program derivation]

theorem checkFrom_of_ranked {rank depth : Nat} {front : List Located} {node : Expression}
    (derivation : Ranked rank depth front node) {start : Nat} (room : start + depth ≤ limit)
    (rest : List Located) : checkFrom start (front ++ rest) = checkFrom start rest := by
  induction derivation generalizing start rest with
  | number | boolean | reference => rfl
  | group _ ih =>
      have opens : start < limit := by omega
      simp only [List.cons_append, List.append_assoc, List.nil_append, checkFrom, opens, if_true]
      rw [ih (by omega)]
      rfl
  | operand _ ih => exact ih room rest
  | join _ _ _ leftIh rightIh =>
      rw [List.append_assoc, leftIh (by omega)]
      exact rightIh (by omega) rest

theorem checkFrom_of_derives {phrase : Phrase} {depth : Nat} {front : List Located}
    (derivation : Derives phrase depth front) {start : Nat} (room : start + depth ≤ limit)
    (rest : List Located) : checkFrom start (front ++ rest) = checkFrom start rest := by
  induction derivation generalizing start rest with
  | declare valueDerived | assign valueDerived | print valueDerived =>
      simp only [List.cons_append, List.append_assoc, List.nil_append, checkFrom,
        checkFrom_of_ranked valueDerived room]
  | branch testDerived _ _ trueIh falseIh =>
      have opens : start < limit := by omega
      simp only [List.cons_append, List.append_assoc, checkFrom, opens, if_true]
      rw [checkFrom_of_ranked testDerived (by omega)]
      simp only [checkFrom, Nat.add_sub_cancel]
      rw [trueIh (by omega), falseIh (by omega)]
  | loop testDerived _ bodyIh =>
      have opens : start < limit := by omega
      simp only [List.cons_append, List.append_assoc, checkFrom, opens, if_true]
      rw [checkFrom_of_ranked testDerived (by omega)]
      simp only [checkFrom, Nat.add_sub_cancel]
      rw [bodyIh (by omega)]
  | nil | withoutElse => rfl
  | cons _ _ firstIh othersIh => rw [List.append_assoc, firstIh (by omega), othersIh (by omega)]
  | block _ ih =>
      have opens : start < limit := by omega
      simp only [List.cons_append, List.append_assoc, List.nil_append, checkFrom, opens, if_true]
      rw [ih (by omega)]
      rfl
  | elseBlock _ ih | elseIf _ ih =>
      simp only [List.cons_append, checkFrom]
      exact ih room rest

theorem check_append {depth : Nat} {front : List Located} {program : List Statement}
    (derivation : Program depth front program) (shallow : depth ≤ limit) (rest : List Located) :
    check (front ++ rest) = check rest :=
  checkFrom_of_derives derivation (by omega) rest

end WhileLang.Nesting
