import Mathlib.Data.List.Induction
import WhileLang.Proofs.Nesting

/-!
The nesting check in terms of segments of the tokens. The count of open brackets does not go below
zero, so it is not the difference between the brackets opened and closed so far: it is the greatest
such difference over the segments that end where the check has come to.
-/

namespace WhileLang.Nesting

def opens : Token → Bool
  | .openParen | .openBrace => true
  | _ => false

def closes : Token → Bool
  | .closeParen | .closeBrace => true
  | _ => false

def opened (tokens : List Located) : Nat := tokens.countP fun found => opens found.token

def closed (tokens : List Located) : Nat := tokens.countP fun found => closes found.token

def Deep (tokens : List Located) : Prop := closed tokens + 257 ≤ opened tokens

def step (depth : Nat) (found : Located) : Nat :=
  if opens found.token then depth + 1
  else if closes found.token then depth - 1
  else depth

def level (depth : Nat) (tokens : List Located) : Nat := tokens.foldl step depth

theorem level_concat (depth : Nat) (tokens : List Located) (last : Located) :
    level depth (tokens ++ [last]) = step (level depth tokens) last := by
  simp [level]

def Fits (depth : Nat) (tokens : List Located) : Prop :=
  ∀ front, front <+: tokens → level depth front ≤ limit

theorem fits_nil {depth : Nat} (within : depth ≤ limit) : Fits depth [] := by
  intro front isFront
  rw [List.prefix_nil.mp isFront]
  exact within

theorem Fits.cons {depth : Nat} {found : Located} {rest : List Located}
    (fits : Fits (step depth found) rest) (within : depth ≤ limit) :
    Fits depth (found :: rest) := by
  intro front isFront
  cases front with
  | nil => exact within
  | cons first others =>
      obtain ⟨rfl, isInside⟩ := List.cons_prefix_cons.mp isFront
      exact fits others isInside

theorem checkFrom_cons {depth : Nat} (within : depth ≤ limit) (found : Located)
    (rest : List Located) :
    checkFrom depth (found :: rest) =
      if step depth found ≤ limit then checkFrom (step depth found) rest
      else .error { line := found.line, fault := .nestingTooDeep limit } := by
  obtain ⟨token, line⟩ := found
  cases token with
  | openParen | openBrace => rfl
  | closeParen | closeBrace =>
      have room : depth - 1 ≤ limit := by omega
      exact (if_pos room).symm
  | _ => exact (if_pos within).symm

theorem fits_of_checkFrom {depth : Nat} {tokens : List Located} (within : depth ≤ limit)
    (accepted : checkFrom depth tokens = .ok ()) : Fits depth tokens := by
  induction tokens generalizing depth with
  | nil => exact fits_nil within
  | cons found rest ih =>
      rw [checkFrom_cons within] at accepted
      split at accepted
      · rename_i room
        exact (ih room accepted).cons within
      · cases accepted

theorem exists_excess_of_checkFrom {depth : Nat} {tokens : List Located} {error : Error}
    (within : depth ≤ limit) (rejected : checkFrom depth tokens = .error error) :
    ∃ before last after, tokens = before ++ last :: after ∧
      error = { line := last.line, fault := .nestingTooDeep limit } ∧
      limit < level depth (before ++ [last]) ∧ Fits depth before := by
  induction tokens generalizing depth with
  | nil => cases rejected
  | cons found rest ih =>
      rw [checkFrom_cons within] at rejected
      split at rejected
      · rename_i room
        obtain ⟨before, last, after, rfl, isError, excess, fits⟩ := ih room rejected
        exact ⟨found :: before, last, after, rfl, isError, excess, fits.cons within⟩
      · rename_i excess
        have beyond : limit < level depth [found] := Nat.lt_of_not_le excess
        exact ⟨[], found, rest, rfl, (Except.error.inj rejected).symm, beyond, fits_nil within⟩

theorem opened_concat (tokens : List Located) (last : Located) :
    opened (tokens ++ [last]) = opened tokens + if opens last.token then 1 else 0 := by
  simp [opened, List.countP_cons]

theorem closed_concat (tokens : List Located) (last : Located) :
    closed (tokens ++ [last]) = closed tokens + if closes last.token then 1 else 0 := by
  simp [closed, List.countP_cons]

-- It does not hold for a count of zero: a closing bracket at depth zero is ignored.
theorem le_step_iff {count : Nat} (positive : 0 < count) (depth : Nat) (last : Located) :
    count ≤ step depth last ↔
      count + (if closes last.token then 1 else 0) ≤
        depth + if opens last.token then 1 else 0 := by
  obtain ⟨token, line⟩ := last
  cases token <;> simp [step, opens, closes] <;> omega

/-- The count is the greatest number of brackets that a segment up to here opens beyond those that
it closes. -/
theorem le_level_iff (count : Nat) (tokens : List Located) :
    count ≤ level 0 tokens ↔
      ∃ segment, segment <:+ tokens ∧ closed segment + count ≤ opened segment := by
  induction tokens using List.reverseRecOn generalizing count with
  | nil => simp [level, closed, opened]
  | append_singleton tokens last ih =>
      by_cases positive : 0 < count
      · -- A segment that opens more than it closes is not empty, so it takes in the last token.
        have shifted := ih (count + (if closes last.token then 1 else 0) -
          if opens last.token then 1 else 0)
        rw [level_concat, le_step_iff positive]
        constructor
        · intro enough
          obtain ⟨segment, isSuffix, deep⟩ := shifted.mp (by omega)
          refine ⟨segment ++ [last], List.suffix_concat_iff.mpr (.inr ⟨segment, rfl, isSuffix⟩), ?_⟩
          rw [closed_concat, opened_concat]
          omega
        · rintro ⟨segment, isSuffix, deep⟩
          rcases List.suffix_concat_iff.mp isSuffix with rfl | ⟨inside, rfl, isInside⟩
          · simp only [closed, opened, List.countP_nil] at deep
            omega
          · have atMostOne : (if opens last.token then 1 else 0) ≤ 1 := by split <;> omega
            rw [closed_concat, opened_concat] at deep
            have enough := shifted.mpr ⟨inside, isInside, by omega⟩
            omega
      · have isZero : count = 0 := by omega
        subst isZero
        simp only [Nat.zero_le, true_iff]
        exact ⟨[], List.nil_suffix, Nat.le_refl 0⟩

theorem exists_deep_iff (tokens : List Located) :
    (∃ segment, segment <:+ tokens ∧ Deep segment) ↔ limit < level 0 tokens :=
  (le_level_iff 257 tokens).symm

theorem Fits.not_deep {tokens segment : List Located} (fits : Fits 0 tokens)
    (isInfix : segment <:+: tokens) : ¬ Deep segment := by
  intro deep
  obtain ⟨front, isSuffix, isFront⟩ := List.infix_iff_suffix_prefix.mp isInfix
  have excess := (exists_deep_iff front).mp ⟨segment, isSuffix, deep⟩
  have atMost := fits front isFront
  omega

theorem exists_deep_of_check {tokens : List Located} {error : Error}
    (rejected : check tokens = .error error) :
    ∃ front inside last back, tokens = front ++ (inside ++ [last]) ++ back ∧
      Deep (inside ++ [last]) ∧
      error = { line := last.line, fault := .nestingTooDeep 256 } ∧
      ∀ otherFront segment otherBack, tokens = otherFront ++ segment ++ otherBack →
        Deep segment → (front ++ (inside ++ [last])).length ≤ (otherFront ++ segment).length := by
  obtain ⟨before, last, back, rfl, isError, excess, fits⟩ :=
    exists_excess_of_checkFrom (Nat.zero_le limit) rejected
  obtain ⟨segment, isSuffix, deep⟩ := (exists_deep_iff _).mpr excess
  rcases List.suffix_concat_iff.mp isSuffix with rfl | ⟨inside, rfl, ⟨front, rfl⟩⟩
  · simp [Deep, closed, opened] at deep
  · refine ⟨front, inside, last, back, by simp, deep, isError, ?_⟩
    intro otherFront segment otherBack isTokens otherDeep
    apply Nat.le_of_not_lt
    intro earlier
    have isFront : otherFront ++ segment <+: front ++ inside := by
      refine List.prefix_of_prefix_length_le ⟨otherBack, isTokens.symm⟩
        (List.prefix_append _ (last :: back)) ?_
      simp only [List.length_append, List.length_cons, List.length_nil] at earlier ⊢
      omega
    have isInfix := (List.suffix_append otherFront segment).isInfix.trans isFront.isInfix
    exact fits.not_deep isInfix otherDeep

/-- Tokens are rejected exactly if some segment opens 257 brackets more than it closes; the error is
on the line where the first of these segments ends. So every segment of accepted tokens is accepted.
-/
theorem check_finds_deep_segment (tokens : List Located) :
    ((∃ error, check tokens = .error error) ↔ ∃ segment, segment <:+: tokens ∧ Deep segment) ∧
    (∀ error, check tokens = .error error →
      ∃ front inside last back, tokens = front ++ (inside ++ [last]) ++ back ∧
        Deep (inside ++ [last]) ∧
        error = { line := last.line, fault := .nestingTooDeep 256 } ∧
        ∀ otherFront segment otherBack, tokens = otherFront ++ segment ++ otherBack →
          Deep segment →
          (front ++ (inside ++ [last])).length ≤ (otherFront ++ segment).length) ∧
    (check tokens = .ok () → ∀ segment, segment <:+: tokens → check segment = .ok ()) := by
  have finds {tokens : List Located} {error : Error} (rejected : check tokens = .error error) :
      ∃ segment, segment <:+: tokens ∧ Deep segment := by
    obtain ⟨front, inside, last, back, rfl, deep, _⟩ := exists_deep_of_check rejected
    exact ⟨_, ⟨front, back, rfl⟩, deep⟩
  refine ⟨⟨?_, ?_⟩, fun _ => exists_deep_of_check, ?_⟩
  · rintro ⟨error, rejected⟩
    exact finds rejected
  · rintro ⟨segment, isInfix, deep⟩
    cases checked : check tokens with
    | error error => exact ⟨error, rfl⟩
    | ok _ => exact absurd deep ((fits_of_checkFrom (Nat.zero_le limit) checked).not_deep isInfix)
  · intro accepted segment isInfix
    have fits := fits_of_checkFrom (Nat.zero_le limit) accepted
    cases checked : check segment with
    | error error =>
        obtain ⟨inner, isInner, deep⟩ := finds checked
        exact absurd deep (fits.not_deep (isInner.trans isInfix))
    | ok _ => rfl

-- The closing brace in front is no part of the segment.
theorem check_finds_deep_segment_unbalanced :
    ∃ tokens, check (⟨.closeBrace, 1⟩ :: tokens) = .error ⟨3, .nestingTooDeep 256⟩ ∧
      (∃ segment, segment <:+: ⟨.closeBrace, 1⟩ :: tokens ∧ Deep segment) ∧
      (∃ front inside last back,
        ⟨.closeBrace, 1⟩ :: tokens = front ++ (inside ++ [last]) ++ back ∧ last.line = 3) ∧
      check [⟨.closeBrace, 1⟩, ⟨.openParen, 1⟩] = .ok () ∧ check [⟨.openParen, 1⟩] = .ok () := by
  let tokens : List Located :=
    List.replicate 256 ⟨.openParen, 2⟩ ++ [⟨.openBrace, 3⟩, ⟨.closeParen, 4⟩]
  have rejected : check (⟨.closeBrace, 1⟩ :: tokens) = .error ⟨3, .nestingTooDeep 256⟩ := by
    decide +kernel
  have accepted : check [⟨.closeBrace, 1⟩, ⟨.openParen, 1⟩] = .ok () := rfl
  have deep := (check_finds_deep_segment (⟨.closeBrace, 1⟩ :: tokens)).1.mp ⟨_, rejected⟩
  obtain ⟨front, inside, last, back, isTokens, _, isError, _⟩ :=
    (check_finds_deep_segment (⟨.closeBrace, 1⟩ :: tokens)).2.1 _ rejected
  have isLine : 3 = last.line := congrArg Error.line isError
  exact ⟨tokens, rejected, deep, ⟨front, inside, last, back, isTokens, isLine.symm⟩, accepted,
    (check_finds_deep_segment _).2.2 accepted _ ⟨[⟨.closeBrace, 1⟩], [], rfl⟩⟩

end WhileLang.Nesting
