/-
The characters of identifiers.
-/
import ScriptEngine.Text.IdentifierTable

namespace ScriptEngine.Text

/-- A letter of any script, `$` or `_`. -/
def isIdentifierStart (c : Char) : Bool :=
  if c.toNat < 128 then c.isAlpha || c == '$' || c == '_'
  else inRanges startRanges c.toNat

/-- A character that may continue an identifier: also digits and marks. -/
def isIdentifierPart (c : Char) : Bool :=
  if c.toNat < 128 then c.isAlphanum || c == '$' || c == '_'
  else inRanges startRanges c.toNat || inRanges partRanges c.toNat

theorem isIdentifierPart_of_start {c : Char} (h : isIdentifierStart c = true) :
    isIdentifierPart c = true := by
  unfold isIdentifierStart at h
  unfold isIdentifierPart
  split at h <;> rename_i hc
  · simp only [hc, ↓reduceIte]
    simp only [Char.isAlphanum, Bool.or_eq_true] at h ⊢
    rcases h with (h | h) | h <;> simp [h]
  · simp [hc, h]

end ScriptEngine.Text
