/-
Lexemes by themselves. A lexeme is a stretch of the text, and one that is a
token stays the same token when its text stands alone: what was read behind it
only decided where it ends. `Lexes` says which reader takes a place. Main
statements: `lexeme_reads` and `lexeme_alone`.
-/
import ScriptEngine.Proofs.Source.Place

namespace ScriptEngine.Scanner

/-! ## Runs of characters -/

section

variable {p : Char → Bool} {cs w : List Char}

theorem takeWhile_shortened (h : w <+: cs.dropWhile p) : (cs.takeWhile p ++ w).takeWhile p = cs.takeWhile p := by
  induction cs with
  | nil => simp_all
  | cons c cs ih =>
    cases hc : p c with
    | true =>
      rw [List.dropWhile_cons_of_pos hc] at h
      rw [List.takeWhile_cons_of_pos hc, List.cons_append, List.takeWhile_cons_of_pos hc, ih h]
    | false =>
      have hn : ¬ p c = true := by simp [hc]
      rw [List.dropWhile_cons_of_neg hn] at h
      rw [List.takeWhile_cons_of_neg hn, List.nil_append]
      cases w with
      | nil => rfl
      | cons d w =>
        obtain ⟨rfl, -⟩ := List.cons_prefix_cons.1 h
        exact List.takeWhile_cons_of_neg hn

theorem dropWhile_shortened (h : w <+: cs.dropWhile p) : (cs.takeWhile p ++ w).dropWhile p = w := by
  have happ := List.takeWhile_append_dropWhile (p := p) (l := cs.takeWhile p ++ w)
  rw [takeWhile_shortened h] at happ
  exact List.append_cancel_left happ

theorem takeWhile_takeWhile : (cs.takeWhile p).takeWhile p = cs.takeWhile p := by
  have h : (cs.takeWhile p ++ []).takeWhile p = cs.takeWhile p := takeWhile_shortened List.nil_prefix
  rwa [List.append_nil] at h

theorem takeWhile_whole (h : cs.length ≤ (cs.takeWhile p).length) :
    cs.takeWhile p = cs :=
  (List.takeWhile_prefix p).eq_of_length_le h

end

theorem Place.drop_all (w : List Char) (offset : Nat) : Place.drop ⟨w, offset⟩ w.length = ⟨[], offset + byteSize w⟩ := by
  simp [Place.drop]

/-! ## Numbers -/

theorem scanMantissa_shortened (cs : List Char) :
    ∃ rest, cs = scanMantissa cs ++ rest ∧ ∀ w, w <+: rest → scanMantissa (scanMantissa cs ++ w) = scanMantissa cs := by
  have hsplit := List.takeWhile_append_dropWhile (p := Number.isDigit) (l := cs)
  unfold scanMantissa
  split
  · rename_i ds hds
    refine ⟨ds.dropWhile Number.isDigit, ?_, ?_⟩
    · rw [List.append_assoc, List.cons_append, List.takeWhile_append_dropWhile, ← hds, hsplit]
    · intro w hw
      have hdot : '.' :: (ds.takeWhile Number.isDigit ++ w) <+: cs.dropWhile Number.isDigit := by
        rw [hds, List.cons_prefix_cons]
        refine ⟨rfl, ?_⟩
        conv => rhs; rw [← List.takeWhile_append_dropWhile (p := Number.isDigit) (l := ds)]
        exact List.prefix_append_right_inj _ |>.2 hw
      rw [List.append_assoc, List.cons_append, takeWhile_shortened hdot, dropWhile_shortened hdot]
      simp only [takeWhile_shortened hw]
  · rename_i hds
    refine ⟨cs.dropWhile Number.isDigit, hsplit.symm, ?_⟩
    intro w hw
    rw [takeWhile_shortened hw, dropWhile_shortened hw]
    split
    · rename_i ds
      obtain ⟨rest, hrest⟩ := hw
      exact absurd hrest.symm (hds _)
    · rfl

theorem scanExponent_shortened (cs : List Char) :
    ∃ w rest, cs = w ++ rest ∧ w.length = (scanExponent cs).length ∧ scanExponent w = scanExponent cs := by
  cases cs with
  | nil => exact ⟨[], [], rfl, rfl, rfl⟩
  | cons mark cs =>
    cases hm : mark == 'e' || mark == 'E' with
    | false => exact ⟨[], mark :: cs, rfl, by simp [scanExponent, hm], by simp [scanExponent, hm]⟩
    | true =>
      -- With or without a sign, digits follow up to the end of the run.
      have hrun : ∀ ds : List Char, ds = ds.takeWhile Number.isDigit ++ ds.dropWhile Number.isDigit :=
        fun _ => List.takeWhile_append_dropWhile.symm
      simp only [scanExponent, hm, if_true]
      split
      · rename_i ds
        refine ⟨mark :: '+' :: ds.takeWhile Number.isDigit, ds.dropWhile Number.isDigit, ?_, rfl, ?_⟩
        · rw [List.cons_append, List.cons_append, ← hrun]
        · simp [hm, takeWhile_takeWhile]
      · rename_i ds
        refine ⟨mark :: '-' :: ds.takeWhile Number.isDigit, ds.dropWhile Number.isDigit, ?_, rfl, ?_⟩
        · rw [List.cons_append, List.cons_append, ← hrun]
        · simp [hm, takeWhile_takeWhile]
      · refine ⟨mark :: cs.takeWhile Number.isDigit, cs.dropWhile Number.isDigit, ?_, rfl, ?_⟩
        · rw [List.cons_append, ← hrun]
        · simp only [hm, if_true]
          split
          · rename_i h
            have hall := List.all_takeWhile (p := Number.isDigit) (l := cs)
            rw [h] at hall
            cases hall
          · rename_i h
            have hall := List.all_takeWhile (p := Number.isDigit) (l := cs)
            rw [h] at hall
            cases hall
          · rw [takeWhile_takeWhile]

/-! ## Strings -/

theorem utf8Size_of_isHexDigit {c : Char} (h : Number.isHexDigit c = true) : c.utf8Size = 1 := by
  have hc : c ≤ '\x7f' := by
    by_contra hc
    have hgt : ∀ d : Char, d ≤ '\x7f' → ¬ c ≤ d := fun d hd hle => hc (Char.le_trans hle hd)
    simp [Number.isHexDigit, Number.digitValue?, hgt '9' (by decide), hgt 'f' (by decide), hgt 'F' (by decide)] at h
  have hval : c.val ≤ 0x7f := hc
  simp [Char.utf8Size, hval]

theorem byteSize_of_hexValue {cs : List Char} {n : Nat} (h : hexValue cs = some n) : byteSize cs = cs.length := by
  have hall : cs.all Number.isHexDigit = true := by
    by_contra hn
    simp [hexValue, hn] at h
  clear h
  induction cs with
  | nil => rfl
  | cons c cs ih =>
    rw [List.all_cons, Bool.and_eq_true] at hall
    rw [byteSize_cons, utf8Size_of_isHexDigit hall.1, ih hall.2, List.length_cons, Nat.add_comm]

theorem byteSize_byteEscape {a b c : Char} (h : (hexValue [a, b]).bind charOf? = some c) :
    byteSize ['\\', 'x', a, b] = 4 := by
  obtain ⟨n, hn, -⟩ := Option.bind_eq_some_iff.1 h
  rw [byteSize_cons, byteSize_cons, byteSize_of_hexValue hn]
  rfl

theorem byteSize_unitEscape {a b c d e : Char} (h : (hexValue [a, b, c, d]).bind charOf? = some e) :
    byteSize ['\\', 'u', a, b, c, d] = 6 := by
  obtain ⟨n, hn, -⟩ := Option.bind_eq_some_iff.1 h
  rw [byteSize_cons, byteSize_cons, byteSize_of_hexValue hn]
  rfl

section

variable {quote : Char} {rest acc acc' v cs after : List Char} {s : String}

/-- A piece of a string literal in front of a rest, and the characters read, last one first, before it and
with it. -/
inductive Chunk (quote : Char) (rest acc : List Char) : List Char → List Char → Prop
  | byteEscape {a b c : Char} (h : (hexValue [a, b]).bind charOf? = some c) :
      Chunk quote rest acc ['\\', 'x', a, b] (c :: acc)
  | unitEscape {a b c d e : Char} (h : (hexValue [a, b, c, d]).bind charOf? = some e) :
      Chunk quote rest acc ['\\', 'u', a, b, c, d] (e :: acc)
  | lineFeed : Chunk quote rest acc ['\\', '\n'] acc
  | returnFeed : Chunk quote rest acc ['\\', '\r', '\n'] acc
  | carriageReturn (h : ∀ ds, rest ≠ '\n' :: ds) : Chunk quote rest acc ['\\', '\r'] acc
  | letter {c : Char} (hx : c ≠ 'x') (hu : c ≠ 'u') (hn : c ≠ '\n') (hr : c ≠ '\r') :
      Chunk quote rest acc ['\\', c] (letterEscape c :: acc)
  | raw {c : Char} (hn : c ≠ '\n') (hb : c ≠ '\\') (hq : c ≠ quote) : Chunk quote rest acc [c] (c :: acc)

theorem scanString_chunk (h : Chunk quote rest acc v acc') (offset : Nat) :
    scanString quote (v ++ rest) offset acc = scanString quote rest (offset + byteSize v) acc' := by
  cases h with
  | byteEscape h =>
    rw [byteSize_byteEscape h]
    simp [scanString, h]
  | unitEscape h =>
    rw [byteSize_unitEscape h]
    simp [scanString, h]
  | lineFeed => simp [scanString, show byteSize ['\\', '\n'] = 2 from rfl]
  | returnFeed => simp [scanString, show byteSize ['\\', '\r', '\n'] = 3 from rfl]
  | carriageReturn h =>
    rw [show byteSize ['\\', '\r'] = 2 from rfl, List.cons_append, List.cons_append, List.nil_append, scanString]
    exact h
  | @letter c hx hu hn hr =>
    have hsize : offset + byteSize ['\\', c] = offset + 1 + c.utf8Size := by
      simp [show '\\'.utf8Size = 1 from rfl, Nat.add_assoc]
    rw [hsize, List.cons_append, List.cons_append, List.nil_append, scanString]
    all_goals intros; contradiction
  | raw hn hb hq =>
    rw [List.cons_append, List.nil_append, scanString]
    · simp [hq]
    · exact hn
    · exact hb

theorem scanString_quote (hn : quote ≠ '\n') (hb : quote ≠ '\\') (offset : Nat) :
    scanString quote ([quote] ++ rest) offset acc =
      ⟨.string (String.ofList acc.reverse), ⟨rest, offset + byteSize [quote]⟩⟩ := by
  rw [List.cons_append, List.nil_append, scanString]
  · simp
  · exact hn
  · exact hb

/-- The text has the closing quote of a string in front of `after`, and it is that string whatever follows. -/
def Closes (quote : Char) (cs acc : List Char) (s : String) (after : List Char) : Prop :=
  ∃ w, w ≠ [] ∧ cs = w ++ after ∧
    ∀ rest start, scanString quote (w ++ rest) start acc = ⟨.string s, ⟨rest, start + byteSize w⟩⟩

theorem Closes.chunk (h : Closes quote cs acc' s after)
    (hv : ∀ w rest, w ≠ [] → cs = w ++ after → Chunk quote (w ++ rest) acc v acc') :
    Closes quote (v ++ cs) acc s after := by
  obtain ⟨w, hne, rfl, hw⟩ := h
  refine ⟨v ++ w, by simp [hne], (List.append_assoc ..).symm, fun rest start => ?_⟩
  rw [List.append_assoc, scanString_chunk (hv w rest hne rfl), hw, byteSize_append, Nat.add_assoc]

end

theorem scanString_reads (quote : Char) (cs : List Char) (offset : Nat) (acc : List Char) :
    ∃ w, Place.Reads ⟨cs, offset⟩ w (scanString quote cs offset acc).after := by
  fun_induction scanString quote cs offset acc with
  | case1 => exact ⟨[], .refl _⟩
  | case2 | case3 | case14 => exact ⟨_, (Place.Reads.refl _).cons⟩
  | case4 offset acc a b cs c hc ih =>
    obtain ⟨w, hw⟩ := ih
    exact ⟨_, Place.Reads.trans (v := ['\\', 'x', a, b]) ⟨rfl, by rw [byteSize_byteEscape hc]⟩ hw⟩
  | case7 offset acc a b c d cs e he ih =>
    obtain ⟨w, hw⟩ := ih
    exact ⟨_, Place.Reads.trans (v := ['\\', 'u', a, b, c, d]) ⟨rfl, by rw [byteSize_unitEscape he]⟩ hw⟩
  | case5 | case6 | case8 | case9 => exact ⟨_, (Place.drop_reads _ _).cons.cons⟩
  | case10 _ _ _ ih | case12 _ _ _ _ ih | case13 _ _ _ _ _ _ _ _ _ _ _ ih =>
    obtain ⟨w, hw⟩ := ih
    exact ⟨_, hw.cons.cons⟩
  | case11 _ _ _ ih =>
    obtain ⟨w, hw⟩ := ih
    exact ⟨_, hw.cons.cons.cons⟩
  | case15 _ _ _ _ _ _ _ ih =>
    obtain ⟨w, hw⟩ := ih
    exact ⟨_, hw.cons⟩

theorem scanString_closed {quote : Char} {cs : List Char} {offset : Nat} {acc : List Char} {s : String}
    (h : (scanString quote cs offset acc).kind = .string s) :
    Closes quote cs acc s (scanString quote cs offset acc).after.rest := by
  fun_induction scanString quote cs offset acc with
  | case4 offset acc a b cs c hc ih => exact (ih h).chunk fun _ _ _ _ => .byteEscape hc
  | case7 offset acc a b c d cs e he ih => exact (ih h).chunk fun _ _ _ _ => .unitEscape he
  | case10 offset acc cs ih => exact (ih h).chunk fun _ _ _ _ => .lineFeed
  | case11 offset acc cs ih => exact (ih h).chunk fun _ _ _ _ => .returnFeed
  | case12 offset acc cs hcs ih =>
    -- The closing quote is still to come, so the character behind the return is that of the text.
    refine (ih h).chunk fun w rest hne hw => .carriageReturn fun ds hds => ?_
    obtain ⟨c, w, rfl⟩ := List.exists_cons_of_ne_nil hne
    cases hds
    exact hcs _ hw
  | case13 offset acc c cs _ hx _ hu hn _ hr ih => exact (ih h).chunk fun _ _ _ _ => .letter hx hu hn hr
  | case14 c cs offset acc hn hb hc =>
    cases beq_iff_eq.1 hc
    cases h
    exact ⟨[quote], by simp, rfl, fun rest start => scanString_quote hn hb start⟩
  | case15 c cs offset acc hn hb hc ih => exact (ih h).chunk fun _ _ _ _ => .raw hn hb (by simpa using hc)
  | _ => cases h

theorem scanString_kind (quote : Char) (cs : List Char) (offset : Nat) (acc : List Char) :
    (∃ s, (scanString quote cs offset acc).kind = .string s) ∨
      ∃ fault, (scanString quote cs offset acc).kind = .invalid fault := by
  fun_induction scanString quote cs offset acc with
  | case14 => exact .inl ⟨_, rfl⟩
  | case4 _ _ _ _ _ _ _ ih | case7 _ _ _ _ _ _ _ _ _ ih | case10 _ _ _ ih | case11 _ _ _ ih | case12 _ _ _ _ ih
  | case13 _ _ _ _ _ _ _ _ _ _ _ ih | case15 _ _ _ _ _ _ _ ih => exact ih
  | _ => exact .inr ⟨_, rfl⟩

/-! ## Which reader takes a place -/

theorem ofStart?_take {cs : List Char} {m : Punctuator} {n : Nat} (h : Punctuator.ofStart? cs = some (m, n)) :
    Punctuator.ofStart? (cs.take n) = some (m, n) := by
  unfold Punctuator.ofStart? at h
  split at h <;> cases h <;> rfl

def startsHex : List Char → Bool
  | '0' :: 'x' :: _ => true
  | '0' :: 'X' :: _ => true
  | _ => false

/-- The lexeme at a place in front of some text, by the character it starts with. -/
inductive Lexes (p : Place) : Lexeme → Prop
  | hex : startsHex p.rest = true → Lexes p (scanHex (p.drop 2))
  | decimal : startsNumber p.rest = true → startsHex p.rest = false → Lexes p (scanDecimal p)
  | mark {m : Punctuator} {n : Nat} : startsNumber p.rest = false → Punctuator.ofStart? p.rest = some (m, n) →
      Lexes p ⟨.mark m, p.drop n⟩
  | string {c : Char} {cs : List Char} : p.rest = c :: cs → (c == '"' || c == '\'') = true →
      Lexes p (scanString c cs (p.offset + 1) [])
  | name {c : Char} {cs : List Char} : p.rest = c :: cs → Text.isIdentifierStart c = true → Lexes p (scanName p)
  | unexpected {c : Char} : Lexes p ⟨.invalid (.unexpectedCharacter c), p.drop 1⟩

theorem lexes_lexeme {p : Place} (hp : p.rest ≠ []) : Lexes p (lexeme p) := by
  unfold lexeme
  split
  · contradiction
  · rename_i c cs hcs
    split
    · rename_i hn
      split
      · rename_i h
        exact .hex (by rw [h]; rfl)
      · rename_i h
        exact .hex (by rw [h]; rfl)
      · rename_i hx hX
        refine .decimal hn ?_
        unfold startsHex
        split
        · exact absurd ‹_› (hx _)
        · exact absurd ‹_› (hX _)
        · rfl
    · rename_i hn
      split
      · rename_i hm
        exact .mark (Bool.eq_false_iff.2 hn) hm
      · split
        · rename_i hq
          exact .string hcs hq
        · split
          · rename_i hs
            exact .name hcs hs
          · exact .unexpected

section

variable {p : Place} {c : Char} {cs : List Char}

theorem startsNumber_cons (hc : c ≠ '.') : startsNumber (c :: cs) = Number.isDigit c := by
  unfold startsNumber
  split
  · rename_i h
    cases h
    exact absurd rfl hc
  · rename_i h
    cases h
    rfl
  · rename_i h
    cases h

theorem lexeme_hex (h : startsHex p.rest = true) : lexeme p = scanHex (p.drop 2) := by
  obtain ⟨rest, offset⟩ := p
  simp only at h
  unfold startsHex at h
  split at h
  · rfl
  · rfl
  · cases h

theorem lexeme_decimal (hn : startsNumber p.rest = true) (hx : startsHex p.rest = false) :
    lexeme p = scanDecimal p := by
  unfold lexeme
  split
  · rename_i hp
    rw [hp] at hn
    cases hn
  · rw [if_pos hn]
    split
    · rename_i h
      rw [h] at hx
      cases hx
    · rename_i h
      rw [h] at hx
      cases hx
    · rfl

theorem lexeme_mark {m : Punctuator} {n : Nat} (hn : startsNumber p.rest = false)
    (hm : Punctuator.ofStart? p.rest = some (m, n)) : lexeme p = ⟨.mark m, p.drop n⟩ := by
  unfold lexeme
  split
  · rename_i hp
    rw [hp] at hm
    cases hm
  · simp [hn, hm]

theorem lexeme_string (hq : (c == '"' || c == '\'') = true) (offset : Nat) :
    lexeme ⟨c :: cs, offset⟩ = scanString c cs (offset + 1) [] := by
  simp only [Bool.or_eq_true, beq_iff_eq] at hq
  rcases hq with rfl | rfl <;> rfl

theorem isDigit_of_isIdentifierStart (h : Text.isIdentifierStart c = true) : Number.isDigit c = false := by
  refine Bool.eq_false_iff.2 fun hd => ?_
  have hrange : 48 ≤ c.toNat ∧ c.toNat ≤ 57 := by
    simpa [Number.isDigit, Char.le_def, UInt32.le_iff_toNat_le] using hd
  have hascii : c.toNat < 128 := by omega
  simp only [Text.isIdentifierStart, hascii, if_true, Bool.or_eq_true, beq_iff_eq] at h
  rcases h with (h | rfl) | rfl
  · change (decide (65 ≤ c.val ∧ c.val ≤ 90) || (decide (97 ≤ c.val) && decide (c.val ≤ 122))) = true at h
    simp only [Bool.or_eq_true, Bool.and_eq_true, decide_eq_true_eq, UInt32.le_iff_toNat_le] at h
    change (65 ≤ c.toNat ∧ c.toNat ≤ 90) ∨ (97 ≤ c.toNat ∧ c.toNat ≤ 122) at h
    omega
  · exact absurd hd (by decide)
  · exact absurd hd (by decide)

theorem ofStart?_of_isIdentifierStart (h : Text.isIdentifierStart c = true) :
    Punctuator.ofStart? (c :: cs) = none := by
  cases hm : Punctuator.ofStart? (c :: cs) with
  | none => rfl
  | some =>
    unfold Punctuator.ofStart? at hm
    split at hm
    case h_49 => cases hm
    all_goals
      rename_i hcs
      cases hcs
      cases h

theorem lexeme_name (h : Text.isIdentifierStart c = true) (offset : Nat) :
    lexeme ⟨c :: cs, offset⟩ = scanName ⟨c :: cs, offset⟩ := by
  have hdot : c ≠ '.' := by
    rintro rfl
    cases h
  have hquote : (c == '"' || c == '\'') = false := by
    refine Bool.eq_false_iff.2 fun hq => ?_
    simp only [Bool.or_eq_true, beq_iff_eq] at hq
    rcases hq with rfl | rfl <;> cases h
  simp [lexeme, startsNumber_cons hdot, isDigit_of_isIdentifierStart h, ofStart?_of_isIdentifierStart h, hquote, h]

theorem startsNumber_append (r : List Char) (h : startsNumber cs = true) : startsNumber (cs ++ r) = true := by
  unfold startsNumber at h
  split at h
  · exact h
  · rename_i c ds hcs
    have hdot : c ≠ '.' := by
      rintro rfl
      cases h
    rw [List.cons_append, startsNumber_cons hdot, h]
  · cases h

theorem startsHex_append (r : List Char) (h : startsHex cs = true) : startsHex (cs ++ r) = true := by
  unfold startsHex at h
  split at h
  · rfl
  · rfl
  · cases h

theorem startsHex_cases (h : startsHex cs = true) :
    ∃ x ds, cs = '0' :: x :: ds ∧ x.utf8Size = 1 ∧ ∀ ds, startsHex ('0' :: x :: ds) = true := by
  unfold startsHex at h
  split at h
  · exact ⟨_, _, rfl, rfl, fun _ => rfl⟩
  · exact ⟨_, _, rfl, rfl, fun _ => rfl⟩
  · cases h

theorem startsNumber_scanMantissa (w : List Char) (h : startsNumber cs = true) :
    startsNumber (scanMantissa cs ++ w) = true := by
  unfold startsNumber at h
  split at h
  · simp [scanMantissa, show Number.isDigit '.' = false from rfl, h, startsNumber]
  · rename_i c ds hcs
    have hdot : c ≠ '.' := by
      rintro rfl
      cases h
    obtain ⟨rest, hrest⟩ : ∃ rest, scanMantissa (c :: ds) = c :: rest := by
      simp only [scanMantissa, List.takeWhile_cons_of_pos h]
      split <;> exact ⟨_, rfl⟩
    rw [hrest, List.cons_append, startsNumber_cons hdot, h]
  · cases h

end

/-! ## Lexemes are text -/

theorem utf8Size_of_quote {c : Char} (h : (c == '"' || c == '\'') = true) : c.utf8Size = 1 := by
  simp only [Bool.or_eq_true, beq_iff_eq] at h
  rcases h with rfl | rfl <;> rfl

theorem lexeme_reads {p : Place} (hp : p.rest ≠ []) : ∃ w, w ≠ [] ∧ p.Reads w (lexeme p).after := by
  have hlt := lexeme_length hp
  have hl := lexes_lexeme hp
  obtain ⟨w, hw⟩ : ∃ w, p.Reads w (lexeme p).after := by
    generalize lexeme p = l at hl
    cases hl with
    | hex => exact ⟨_, (p.drop_reads 2).trans (Place.drop_reads _ _)⟩
    | decimal | mark | name | unexpected => exact ⟨_, p.drop_reads _⟩
    | @string c cs hcs hq =>
      obtain ⟨rest, offset⟩ := p
      cases hcs
      obtain ⟨w, hw⟩ := scanString_reads c cs (offset + 1) []
      exact ⟨_, Place.Reads.cons (by rwa [utf8Size_of_quote hq])⟩
  refine ⟨w, ?_, hw⟩
  rintro rfl
  rw [hw.rest] at hlt
  simp at hlt

/-! ## Lexemes alone -/

theorem scanHex_alone (p : Place) (start : Nat) :
    scanHex ⟨p.rest.takeWhile Number.isHexDigit, start⟩ =
      ⟨(scanHex p).kind, ⟨[], start + byteSize (p.rest.takeWhile Number.isHexDigit)⟩⟩ := by
  simp only [scanHex, takeWhile_takeWhile, Place.drop_all]

theorem scanDecimal_alone {p : Place} (hk : ∀ fault, (scanDecimal p).kind ≠ .invalid fault) :
    ∃ e, p.Reads (scanMantissa p.rest ++ e) (scanDecimal p).after ∧ ∀ start,
      scanDecimal ⟨scanMantissa p.rest ++ e, start⟩ =
        ⟨(scanDecimal p).kind, ⟨[], start + byteSize (scanMantissa p.rest ++ e)⟩⟩ := by
  obtain ⟨rest, hrest, hmantissa⟩ := scanMantissa_shortened p.rest
  obtain ⟨e, tail, rfl, hlen, he⟩ := scanExponent_shortened rest
  generalize hm : scanMantissa p.rest = m at hrest hmantissa ⊢
  have hdrop : p.rest.drop m.length = e ++ tail := by rw [hrest, List.drop_left]
  have hlen : (m ++ scanExponent (e ++ tail)).length = (m ++ e).length := by simp [hlen]
  refine ⟨e, ?_, fun start => ?_⟩
  · have hr := p.drop_reads (m ++ e).length
    rw [show p.rest.take (m ++ e).length = m ++ e by rw [hrest, ← List.append_assoc, List.take_left]] at hr
    simpa only [scanDecimal, hm, hdrop, hlen] using hr
  · have halone : scanDecimal ⟨m ++ e, start⟩ = ⟨(scanDecimal ⟨m ++ e, start⟩).kind, ⟨[], start + byteSize (m ++ e)⟩⟩ := by
      simp only [scanDecimal, hmantissa e (List.prefix_append e tail), List.drop_left, he, hlen, Place.drop_all]
    have hkind : (scanDecimal p).kind = .invalid .identifierAfterNumber ∨
        (scanDecimal ⟨m ++ e, start⟩).kind = (scanDecimal p).kind := by
      simp only [scanDecimal, hm, hdrop, hmantissa e (List.prefix_append e tail), List.drop_left, he, hlen, Place.drop_all]
      split
      · exact .inl rfl
      · exact .inr rfl
    rw [halone, hkind.resolve_left (hk _)]

/-- **A token stays the same when its text stands alone.** -/
theorem lexeme_alone {p : Place} {w : List Char} (hp : p.rest ≠ []) (hw : p.Reads w (lexeme p).after)
    (hk : ∀ fault, (lexeme p).kind ≠ .invalid fault) (start : Nat) :
    lexeme ⟨w, start⟩ = ⟨(lexeme p).kind, ⟨[], start + byteSize w⟩⟩ := by
  have hl := lexes_lexeme hp
  generalize lexeme p = l at hl hw hk
  cases hl with
  | hex hx =>
    obtain ⟨x, ds, hrest, hsize, hstart⟩ := startsHex_cases hx
    have hds : (p.drop 2).rest = ds := by rw [Place.drop_rest, hrest]; rfl
    have hpre := List.prefix_iff_eq_take.1 ( List.takeWhile_prefix (l := ds) Number.isHexDigit)
    obtain rfl : w = '0' :: x :: ds.takeWhile Number.isHexDigit := by
      refine (hw.unique ((p.drop_reads 2).trans (Place.drop_reads _ _))).trans ?_
      rw [hds, ← hpre, hrest]
      rfl
    rw [lexeme_hex (hstart _)]
    have halone := scanHex_alone (p.drop 2) (start + 2)
    rw [hds] at halone
    have hplace : (Place.mk ('0' :: x :: ds.takeWhile Number.isHexDigit) start).drop 2 =
        ⟨ds.takeWhile Number.isHexDigit, start + 2⟩ := by
      simp [Place.drop, hsize, show '0'.utf8Size = 1 from rfl]
    rw [hplace, halone, byteSize_cons, byteSize_cons, hsize, show '0'.utf8Size = 1 from rfl, ← Nat.add_assoc,
      ← Nat.add_assoc]
  | decimal hn hx =>
    obtain ⟨e, he, halone⟩ := scanDecimal_alone hk
    obtain rfl := hw.unique he
    have hx' : startsHex (scanMantissa p.rest ++ e) = false := by
      refine Bool.eq_false_iff.2 fun h => ?_
      rw [hw.rest, startsHex_append _ h] at hx
      cases hx
    rw [lexeme_decimal (startsNumber_scanMantissa e hn) hx', halone]
  | @mark m n hn hm =>
    obtain rfl := hw.unique (p.drop_reads n)
    have hn' : startsNumber (p.rest.take n) = false := by
      refine Bool.eq_false_iff.2 fun h => ?_
      rw [hw.rest, startsNumber_append _ h] at hn
      cases hn
    rw [lexeme_mark hn' (ofStart?_take hm)]
    simp [Place.drop, List.take_take]
  | @string c cs hcs hq =>
    obtain ⟨s, hs⟩ | ⟨fault, hf⟩ := scanString_kind c cs (p.offset + 1) []
    · obtain ⟨v, -, hv, hclosed⟩ := scanString_closed hs
      obtain rfl : w = c :: v := by
        refine List.append_cancel_right (hw.rest.symm.trans ?_)
        rw [hcs, List.cons_append, ← hv]
      have h := hclosed [] (start + 1)
      rw [List.append_nil] at h
      rw [lexeme_string hq, h, hs, byteSize_cons, utf8Size_of_quote hq, Nat.add_assoc]
    · exact absurd hf (hk fault)
  | @name c cs hcs hs =>
    have hpre := List.prefix_iff_eq_take.1 ( List.takeWhile_prefix (l := p.rest) Text.isIdentifierPart)
    obtain rfl : w = p.rest.takeWhile Text.isIdentifierPart := (hw.unique (p.drop_reads _)).trans hpre.symm
    have hrun : p.rest.takeWhile Text.isIdentifierPart = c :: cs.takeWhile Text.isIdentifierPart := by
      rw [hcs, List.takeWhile_cons_of_pos (Text.isIdentifierPart_of_start hs)]
    rw [hrun, lexeme_name hs, ← hrun]
    simp only [scanName, takeWhile_takeWhile, Place.drop_all]
  | unexpected => exact absurd rfl (hk _)

end ScriptEngine.Scanner
