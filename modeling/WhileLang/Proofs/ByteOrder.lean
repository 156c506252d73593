import Mathlib.Data.String.Basic

/-!
The order of texts. Texts are ordered by their characters, and that is the order of the bytes that
they are stored as: a character with a larger code has bytes that come later, whatever follows them.
-/

namespace WhileLang.Text

def bytes (text : String) : List UInt8 := text.toUTF8.data.toList

/-- A code written as a first byte, which carries a mark, and so many bytes of six bits behind it.
-/
def spread (mark : Nat) : Nat → Nat → List UInt8
  | 0, code => [UInt8.ofNat (code + mark)]
  | count + 1, code => spread mark count (code / 64) ++ [UInt8.ofNat (code % 64 + 128)]

/-- What so many bytes of six bits leave of a code for the first byte. -/
def leading : Nat → Nat → Nat
  | 0, code => code
  | count + 1, code => leading count (code / 64)

theorem ofNat_lt_ofNat {small large : Nat} (less : small < large) (bound : large < 256) :
    UInt8.ofNat small < UInt8.ofNat large := by
  rw [UInt8.lt_iff_toNat_lt, UInt8.toNat_ofNat', UInt8.toNat_ofNat']
  omega

theorem spread_lt {mark count small large : Nat} (less : small < large)
    (bound : leading count large + mark < 256) (rest other : List UInt8) :
    spread mark count small ++ rest < spread mark count large ++ other := by
  induction count generalizing small large rest other with
  | zero =>
      have smaller : small + mark < large + mark := by omega
      exact List.cons_lt_cons_iff.mpr (.inl (ofNat_lt_ofNat smaller bound))
  | succ count ih =>
      simp only [spread, List.append_assoc]
      by_cases sameHigh : small / 64 = large / 64
      · rw [sameHigh]
        apply List.append_left_lt
        exact List.cons_lt_cons_iff.mpr (.inl (ofNat_lt_ofNat (by omega) (by omega)))
      · exact ih (by omega) bound _ _

theorem exists_spread_eq_cons (mark count code : Nat) :
    ∃ tail, spread mark count code = UInt8.ofNat (leading count code + mark) :: tail := by
  induction count generalizing code with
  | zero => exact ⟨[], rfl⟩
  | succ count ih =>
      obtain ⟨tail, isSpread⟩ := ih (code / 64)
      refine ⟨tail ++ [UInt8.ofNat (code % 64 + 128)], ?_⟩
      rw [spread, isSpread, List.cons_append, leading]

def following (code : Nat) : Nat :=
  if code ≤ 0x7f then 0 else if code ≤ 0x7ff then 1 else if code ≤ 0xffff then 2 else 3

def leadMark : Nat → Nat
  | 0 => 0
  | 1 => 0xc0
  | 2 => 0xe0
  | _ => 0xf0

def lead (code : Nat) : Nat := leading (following code) code + leadMark (following code)

theorem following_mono {small large : Nat} (less : small < large) :
    following small ≤ following large := by
  unfold following
  split_ifs <;> omega

theorem lead_lt {small large : Nat} (fewer : following small < following large) :
    lead small < lead large := by
  unfold lead
  unfold following at *
  split_ifs at * <;> simp only [leadMark, leading] <;> omega

theorem toNat_val_lt (c : Char) : c.val.toNat < 0x110000 := by
  have valid := c.valid
  unfold UInt32.isValidChar Nat.isValidChar at valid
  omega

theorem lead_lt_256 (c : Char) : lead c.val.toNat < 256 := by
  have inRange := toNat_val_lt c
  unfold lead following
  split_ifs <;> simp only [leadMark, leading] <;> omega

theorem utf8EncodeChar_eq_spread (c : Char) : String.utf8EncodeChar c =
    spread (leadMark (following c.val.toNat)) (following c.val.toNat) c.val.toNat := by
  have inRange := toNat_val_lt c
  simp only [String.utf8EncodeChar, following]
  generalize c.val.toNat = code at inRange ⊢
  split_ifs
  · rfl
  · have first : code / 64 % 32 = code / 64 := by omega
    rw [first]
    rfl
  · have first : code / 4096 % 16 = code / 64 / 64 := by omega
    rw [first]
    rfl
  · have first : code / 262144 % 8 = code / 64 / 64 / 64 := by omega
    have second : code / 4096 % 64 = code / 64 / 64 % 64 := by omega
    rw [first, second]
    rfl

theorem exists_utf8EncodeChar_eq_cons (c : Char) :
    ∃ tail, String.utf8EncodeChar c = UInt8.ofNat (lead c.val.toNat) :: tail := by
  rw [utf8EncodeChar_eq_spread]
  exact exists_spread_eq_cons _ _ _

-- Characters with as many bytes differ in one of them; otherwise the first bytes decide.
theorem utf8EncodeChar_lt {c d : Char} (less : c < d) (rest other : List UInt8) :
    String.utf8EncodeChar c ++ rest < String.utf8EncodeChar d ++ other := by
  have lessCode : c.val.toNat < d.val.toNat := less
  have bound := lead_lt_256 d
  rcases Nat.lt_or_eq_of_le (following_mono lessCode) with fewer | same
  · obtain ⟨tail, isFirst⟩ := exists_utf8EncodeChar_eq_cons c
    obtain ⟨otherTail, isOther⟩ := exists_utf8EncodeChar_eq_cons d
    rw [isFirst, isOther]
    exact List.cons_lt_cons_iff.mpr (.inl (ofNat_lt_ofNat (lead_lt fewer) bound))
  · rw [utf8EncodeChar_eq_spread, utf8EncodeChar_eq_spread, same]
    exact spread_lt lessCode bound rest other

theorem flatMap_encode_lt {text other : List Char} (less : text < other) :
    text.flatMap String.utf8EncodeChar < other.flatMap String.utf8EncodeChar := by
  induction less with
  | @nil c rest =>
      obtain ⟨tail, isCode⟩ := exists_utf8EncodeChar_eq_cons c
      rw [List.flatMap_nil, List.flatMap_cons, isCode]
      exact List.nil_lt_cons _ _
  | rel smaller =>
      rw [List.flatMap_cons, List.flatMap_cons]
      exact utf8EncodeChar_lt smaller _ _
  | cons _ ih =>
      rw [List.flatMap_cons, List.flatMap_cons]
      exact List.append_left_lt ih

theorem bytes_eq (text : String) : bytes text = text.toList.flatMap String.utf8EncodeChar := by
  have encoded : text.toByteArray = text.toList.utf8Encode := by
    rw [← String.toByteArray_ofList, String.ofList_toList]
  rw [bytes, String.toUTF8_eq_toByteArray, encoded, List.utf8Encode, List.data_toByteArray]

theorem bytes_lt_bytes_iff {text other : String} : bytes text < bytes other ↔ text < other := by
  have mono {text other : String} (less : text < other) : bytes text < bytes other := by
    rw [bytes_eq, bytes_eq]
    exact flatMap_encode_lt (String.lt_iff_toList_lt.mp less)
  refine ⟨fun less => ?_, mono⟩
  rcases lt_trichotomy text other with smaller | rfl | larger
  · exact smaller
  · exact absurd less (List.lt_irrefl _)
  · exact absurd less (List.lt_asymm (mono larger))

end WhileLang.Text
