/-
The texts that denote numbers. `IsNumeral` says which they are; reading a text
as a number comes to NaN for all others, but for one slip: a plus sign behind
`0x` is let through. Main statement: `toNumber_numerals`.
-/
import ScriptEngine.Proofs.Number.Double
import ScriptEngine.Proofs.Source.Segmentation

namespace ScriptEngine

namespace Number

/-! ## Numerals -/

def signs : List (List Char) := [[], ['+'], ['-']]

def Digits (ds : List Char) : Prop := ds ≠ [] ∧ ∀ d ∈ ds, isDigit d = true

inductive IsExponent : List Char → Prop
  | none : IsExponent []
  | some {mark : Char} {sign ds : List Char} : mark ∈ ['e', 'E'] → sign ∈ signs → Digits ds → IsExponent (mark :: (sign ++ ds))

/-- Digits with at most one point among them, at least one digit, and an exponent if there is one. -/
inductive IsDecimal : List Char → Prop
  | whole {ds e : List Char} : Digits ds → IsExponent e → IsDecimal (ds ++ e)
  | pointed {ds fs e : List Char} : Digits (ds ++ fs) → IsExponent e → IsDecimal (ds ++ '.' :: (fs ++ e))

/-- One or more hexadecimal digits that denote a number of 64 bits. -/
def IsWord (ds : List Char) : Prop :=
  ds ≠ [] ∧ (∀ d ∈ ds, isHexDigit d = true) ∧ digitsValue 16 ds < Nat.pow 2 64

inductive IsNumeral : List Char → Prop
  | blank : IsNumeral []
  | infinity {sign : List Char} : sign ∈ signs → IsNumeral (sign ++ "Infinity".toList)
  | hex {x : Char} {ds : List Char} : x ∈ ['x', 'X'] → IsWord ds → IsNumeral ('0' :: x :: ds)
  | decimal {sign cs : List Char} : sign ∈ signs → IsDecimal cs → IsNumeral (sign ++ cs)

/-- A hexadecimal integer with a plus sign behind `0x`, which is no numeral. -/
def IsPlusHex (cs : List Char) : Prop := ∃ x ds, x ∈ ['x', 'X'] ∧ cs = '0' :: x :: '+' :: ds ∧ IsWord ds

/-! ## Signs -/

def withoutSign : List Char → List Char
  | '+' :: cs | '-' :: cs => cs
  | cs => cs

theorem exists_sign_iff {P : List Char → Prop} (hplus : ∀ cs, ¬ P ('+' :: cs)) (hminus : ∀ cs, ¬ P ('-' :: cs))
    (cs : List Char) : (∃ sign ∈ signs, ∃ ds, cs = sign ++ ds ∧ P ds) ↔ P (withoutSign cs) := by
  unfold withoutSign
  split
  case h_1 cs => simp [signs, hplus]
  case h_2 cs => simp [signs, hminus]
  case h_3 cs hp hm =>
    constructor
    · rintro ⟨sign, hsign, ds, rfl, h⟩
      simp only [signs, List.mem_cons, List.not_mem_nil, or_false] at hsign
      rcases hsign with rfl | rfl | rfl
      · exact h
      · exact (hp ds rfl).elim
      · exact (hm ds rfl).elim
    · exact fun h => ⟨[], by simp [signs], _, rfl, h⟩

theorem Digits.head {d : Char} {ds : List Char} (h : Digits (d :: ds)) : isDigit d = true :=
  h.2 d (List.mem_cons_self ..)

/-! ## Exponents -/

theorem exponentDigits?_isSome (ds : List Char) : (exponentDigits? ds).isSome = true ↔ Digits ds := by
  unfold exponentDigits? Digits
  cases ds with
  | nil => simp
  | cons d ds => by_cases h : (d :: ds).all isDigit = true <;> simp_all

theorem isExponent_cons {mark : Char} {cs : List Char} :
    IsExponent (mark :: cs) ↔ mark ∈ ['e', 'E'] ∧ Digits (withoutSign cs) := by
  rw [← exists_sign_iff (P := Digits) (fun _ h => by cases h.head) (fun _ h => by cases h.head)]
  constructor
  · intro h
    cases h with
    | some hmark hsign hds => exact ⟨hmark, _, hsign, _, rfl, hds⟩
  · rintro ⟨hmark, sign, hsign, ds, rfl, hds⟩
    exact .some hmark hsign hds

theorem exponentPart?_isSome (cs : List Char) : (exponentPart? cs).isSome = true ↔ IsExponent cs := by
  cases cs with
  | nil => exact ⟨fun _ => .none, fun _ => rfl⟩
  | cons mark cs =>
    rw [isExponent_cons, ← exponentDigits?_isSome]
    unfold exponentPart? withoutSign
    dsimp only
    split
    case isTrue h =>
      simp only [Bool.and_eq_true, bne_iff_ne] at h
      simp [h]
    case isFalse h =>
      have hmark : mark ∈ ['e', 'E'] := by
        by_cases he : mark = 'e' <;> simp_all
      simp only [hmark, true_and]
      split
      case h_1 ds => cases hds : exponentDigits? ds <;> simp [hds]
      case h_2 ds => cases hds : exponentDigits? ds <;> simp [hds]
      case h_3 => cases hds : exponentDigits? cs <;> simp [hds]

/-! ## Decimal literals -/

/-- The text goes on with something else than a digit, or ends. -/
def NoDigit (cs : List Char) : Prop := ∀ c rest, cs = c :: rest → isDigit c = false

/-- A text taken apart into the digits in front of a point, those behind it, and the rest. -/
inductive Split : List Char → List Char → List Char → List Char → Prop
  | whole {ds tail : List Char} : (∀ d ∈ ds, isDigit d = true) → NoDigit tail → (∀ rest, tail ≠ '.' :: rest) →
      Split (ds ++ tail) ds [] tail
  | pointed {ds fs tail : List Char} : (∀ d ∈ ds, isDigit d = true) → (∀ d ∈ fs, isDigit d = true) → NoDigit tail →
      Split (ds ++ '.' :: (fs ++ tail)) ds fs tail

theorem takeWhile_digits {ds rest : List Char} (hds : ∀ d ∈ ds, isDigit d = true) (hrest : NoDigit rest) :
    (ds ++ rest).takeWhile isDigit = ds ∧ (ds ++ rest).dropWhile isDigit = rest := by
  induction ds with
  | nil =>
    cases rest with
    | nil => exact ⟨rfl, rfl⟩
    | cons c rest => simp [hrest c rest rfl]
  | cons d ds ih =>
    obtain ⟨hd, hds⟩ := List.forall_mem_cons.1 hds
    simpa [hd] using ih hds

theorem exists_digits (cs : List Char) : ∃ ds rest, cs = ds ++ rest ∧ (∀ d ∈ ds, isDigit d = true) ∧ NoDigit rest := by
  refine ⟨cs.takeWhile isDigit, cs.dropWhile isDigit, List.takeWhile_append_dropWhile.symm,
    List.all_eq_true.1 List.all_takeWhile, fun c rest h => ?_⟩
  have hhead := List.head?_dropWhile_not isDigit cs
  rwa [h] at hhead

theorem exists_split (cs : List Char) : ∃ ds fs tail, Split cs ds fs tail := by
  obtain ⟨ds, rest, rfl, hds, hrest⟩ := exists_digits cs
  by_cases hdot : ∃ cs, rest = '.' :: cs
  · obtain ⟨cs, rfl⟩ := hdot
    obtain ⟨fs, tail, rfl, hfs, htail⟩ := exists_digits cs
    exact ⟨ds, fs, tail, .pointed hds hfs htail⟩
  · exact ⟨ds, [], rest, .whole hds hrest fun cs h => hdot ⟨cs, h⟩⟩

theorem noDigit_point (cs : List Char) : NoDigit ('.' :: cs) := by
  rintro c rest h
  cases h
  rfl

namespace Split

variable {cs ds fs tail : List Char}

theorem decimal?_eq (h : Split cs ds fs tail) :
    decimal? cs =
      if ds.isEmpty && fs.isEmpty then none
      else (exponentPart? tail).map fun e => ofDigits (ds ++ fs) (e - fs.length) := by
  cases h with
  | whole hds htail hdot =>
    obtain ⟨htake, hdrop⟩ := takeWhile_digits hds htail
    unfold decimal?
    simp only [htake, hdrop]
  | pointed hds hfs htail =>
    obtain ⟨htake, hdrop⟩ := takeWhile_digits hds (noDigit_point (fs ++ tail))
    obtain ⟨htake', hdrop'⟩ := takeWhile_digits hfs htail
    unfold decimal?
    simp only [htake, hdrop, htake', hdrop']

theorem scanMantissa_eq (h : Split cs ds fs tail) : ∃ m, cs = m ++ tail ∧ Scanner.scanMantissa cs = m ∧
    ∀ rest, NoDigit rest → (∀ r, rest ≠ '.' :: r) → Split (m ++ rest) ds fs rest := by
  cases h with
  | whole hds htail hdot =>
    obtain ⟨htake, hdrop⟩ := takeWhile_digits hds htail
    refine ⟨ds, rfl, ?_, fun rest => .whole hds⟩
    unfold Scanner.scanMantissa
    rw [htake, hdrop]
    split
    · exact absurd rfl (hdot _)
    · rfl
  | pointed hds hfs htail =>
    obtain ⟨htake, hdrop⟩ := takeWhile_digits hds (noDigit_point (fs ++ tail))
    refine ⟨ds ++ '.' :: fs, by simp, ?_, fun rest hrest _ => ?_⟩
    · simp only [Scanner.scanMantissa, htake, hdrop, (takeWhile_digits hfs htail).1]
    · simpa using Split.pointed hds hfs hrest

theorem isDecimal (h : Split cs ds fs tail) (hne : ds ++ fs ≠ []) (he : IsExponent tail) : IsDecimal cs := by
  cases h with
  | whole hds => exact .whole ⟨by simpa using hne, hds⟩ he
  | pointed hds hfs => exact .pointed ⟨hne, List.forall_mem_append.2 ⟨hds, hfs⟩⟩ he

end Split

theorem IsExponent.mark {c : Char} {rest : List Char} (h : IsExponent (c :: rest)) : c ∈ ['e', 'E'] :=
  (isExponent_cons.1 h).1

theorem IsExponent.noDigit {e : List Char} (h : IsExponent e) : NoDigit e := by
  rintro c rest rfl
  have hmark := h.mark
  simp only [List.mem_cons, List.not_mem_nil, or_false] at hmark
  rcases hmark with rfl | rfl <;> rfl

theorem IsDecimal.split {cs : List Char} (h : IsDecimal cs) :
    ∃ ds fs tail, Split cs ds fs tail ∧ ds ++ fs ≠ [] ∧ IsExponent tail := by
  cases h with
  | @whole ds e hds he =>
    refine ⟨ds, [], e, .whole hds.2 he.noDigit ?_, by simpa using hds.1, he⟩
    rintro rest rfl
    have hmark := he.mark
    simp at hmark
  | @pointed ds fs e hds he =>
    obtain ⟨hwhole, hfraction⟩ := List.forall_mem_append.1 hds.2
    exact ⟨ds, fs, e, .pointed hwhole hfraction he.noDigit, hds.1, he⟩

theorem decimal?_isSome (cs : List Char) : (decimal? cs).isSome = true ↔ IsDecimal cs := by
  constructor
  · intro h
    obtain ⟨ds, fs, tail, hsplit⟩ := exists_split cs
    rw [hsplit.decimal?_eq] at h
    split at h
    · cases h
    · rename_i hne
      rw [Option.isSome_map, exponentPart?_isSome] at h
      exact hsplit.isDecimal (by simpa using hne) h
  · intro h
    obtain ⟨ds, fs, tail, hsplit, hne, he⟩ := h.split
    rw [hsplit.decimal?_eq, if_neg (by simpa using hne), Option.isSome_map, exponentPart?_isSome]
    exact he

/-! ## Signed decimal literals -/

theorem IsDecimal.head {c : Char} {cs : List Char} (h : IsDecimal (c :: cs)) : isDigit c = true ∨ c = '.' := by
  obtain ⟨ds, fs, tail, hsplit, hne, -⟩ := h.split
  generalize hcs : c :: cs = text at hsplit
  cases hsplit with
  | whole hds =>
    cases ds with
    | nil => simp at hne
    | cons d ds =>
      cases hcs
      exact .inl (hds _ (List.mem_cons_self ..))
  | pointed hds =>
    cases ds with
    | nil =>
      cases hcs
      exact .inr rfl
    | cons d ds =>
      cases hcs
      exact .inl (hds _ (List.mem_cons_self ..))

theorem signedDecimal?_isSome (cs : List Char) :
    (signedDecimal? cs).isSome = true ↔ ∃ sign ∈ signs, ∃ ds, cs = sign ++ ds ∧ IsDecimal ds := by
  have hplus : ∀ cs, ¬ IsDecimal ('+' :: cs) := fun _ h => absurd h.head (by decide)
  have hminus : ∀ cs, ¬ IsDecimal ('-' :: cs) := fun _ h => absurd h.head (by decide)
  rw [exists_sign_iff hplus hminus, ← decimal?_isSome]
  unfold signedDecimal? withoutSign
  split <;> simp

theorem isNaN_ofDigits (ds : List Char) (e : Int) : (ofDigits ds e).isNaN = false := by
  unfold ofDigits
  dsimp only
  split <;> exact isNaN_ofDecimal _ _

theorem isNaN_of_decimal? {cs : List Char} {x : Float} (h : decimal? cs = some x) : x.isNaN = false := by
  obtain ⟨ds, fs, tail, hsplit⟩ := exists_split cs
  rw [hsplit.decimal?_eq] at h
  split at h
  · cases h
  · obtain ⟨e, -, rfl⟩ := Option.map_eq_some_iff.1 h
    exact isNaN_ofDigits _ _

theorem isNaN_of_signedDecimal? {cs : List Char} {x : Float} (h : signedDecimal? cs = some x) : x.isNaN = false := by
  unfold signedDecimal? at h
  split at h
  · obtain ⟨y, hy, rfl⟩ := Option.map_eq_some_iff.1 h
    rw [isNaN_neg]
    exact isNaN_of_decimal? hy
  · exact isNaN_of_decimal? h
  · exact isNaN_of_decimal? h

/-! ## Hexadecimal integers -/

theorem foldl_upTo (limit base n m : Nat) (hbase : 0 < base) (cs : List Char) (h : n = m ∨ limit ≤ n ∧ limit ≤ m) :
    let capped := cs.foldl (fun n c => if n < limit then n * base + (digitValue? base c).getD 0 else n) n
    let value := cs.foldl (fun n c => n * base + (digitValue? base c).getD 0) m
    capped = value ∨ limit ≤ capped ∧ limit ≤ value := by
  induction cs generalizing n m with
  | nil => exact h
  | cons c cs ih =>
    refine ih _ _ ?_
    have hgrow : m ≤ m * base := Nat.le_mul_of_pos_right m hbase
    rcases h with rfl | ⟨hn, hm⟩
    · dsimp only
      split <;> omega
    · dsimp only
      rw [if_neg (Nat.not_lt.2 hn)]
      exact .inr ⟨hn, by omega⟩

theorem digitsValueUpTo_lt_iff {base : Nat} (hbase : 0 < base) (limit : Nat) (cs : List Char) :
    digitsValueUpTo limit base cs < limit ↔ digitsValue base cs < limit := by
  have h := foldl_upTo limit base 0 0 hbase cs (.inl rfl)
  simp only at h
  unfold digitsValueUpTo digitsValue
  omega

theorem unsigned?_isSome (cs : List Char) : (unsigned? 16 (Nat.pow 2 64) cs).isSome = true ↔ IsWord cs := by
  have hdigits : (cs.any fun c => (digitValue? 16 c).isNone) = true ↔ ¬ ∀ d ∈ cs, isHexDigit d = true := by
    simp [isHexDigit]
  unfold unsigned? IsWord
  rw [← digitsValueUpTo_lt_iff (by decide)]
  split
  case isTrue h =>
    rw [Bool.or_eq_true, List.isEmpty_iff, hdigits] at h
    simp only [Option.isSome_none, Bool.false_eq_true, false_iff]
    rintro ⟨hne, hall, -⟩
    exact h.elim hne fun hn => hn hall
  case isFalse h =>
    rw [Bool.or_eq_true, List.isEmpty_iff, hdigits, not_or, Decidable.not_not] at h
    rw [and_iff_right h.1, and_iff_right h.2]
    dsimp only
    split <;> simp_all

theorem not_isWord_plus (ds : List Char) : ¬ IsWord ('+' :: ds) :=
  fun h => absurd (h.2.1 '+' (List.mem_cons_self ..)) (by decide)

theorem plusUnsigned?_isSome (cs : List Char) :
    (plusUnsigned? 16 (Nat.pow 2 64) cs).isSome = true ↔ IsWord cs ∨ ∃ ds, cs = '+' :: ds ∧ IsWord ds := by
  unfold plusUnsigned?
  split
  case h_1 ds =>
    rw [unsigned?_isSome]
    simp [not_isWord_plus]
  case h_2 h =>
    rw [unsigned?_isSome, or_iff_left]
    rintro ⟨ds, hds, -⟩
    exact h ds hds

/-! ## Reading a text -/

section

variable {s : String}

theorem ofText_blank (h : Text.trim s.toList = []) : ofText s = 0.0 := by
  simp only [ofText, h]

theorem ofText_hex {x : Char} {hex : List Char} (hx : x ∈ ['x', 'X']) (h : Text.trim s.toList = '0' :: x :: hex) :
    ofText s = ((plusUnsigned? 16 (Nat.pow 2 64) hex).map ofWord).getD nan := by
  simp only [List.mem_cons, List.not_mem_nil, or_false] at hx
  rcases hx with rfl | rfl
  all_goals
    simp only [ofText, h]
    cases plusUnsigned? 16 (Nat.pow 2 64) hex <;> rfl

theorem ofText_other (hblank : Text.trim s.toList ≠ []) (hhex : Scanner.startsHex (Text.trim s.toList) = false) :
    ofText s =
      if Text.trim s.toList = "Infinity".toList ∨ Text.trim s.toList = "+Infinity".toList then infinity
      else if Text.trim s.toList = "-Infinity".toList then -infinity
      else (signedDecimal? (Text.trim s.toList)).getD nan := by
  unfold ofText
  split
  · contradiction
  · simp_all [Scanner.startsHex]
  · simp_all [Scanner.startsHex]
  · rfl

end

theorem startsHex_iff {cs : List Char} :
    Scanner.startsHex cs = true ↔ ∃ x hex, x ∈ ['x', 'X'] ∧ cs = '0' :: x :: hex := by
  unfold Scanner.startsHex
  split <;> simp_all

theorem decimal?_hex {x : Char} (hx : x ∈ ['x', 'X']) (hex : List Char) : decimal? ('0' :: x :: hex) = none := by
  have hsplit : Split (['0'] ++ x :: hex) ['0'] [] (x :: hex) := by
    simp only [List.mem_cons, List.not_mem_nil, or_false] at hx
    refine .whole (List.forall_mem_singleton.2 rfl) (fun c rest h => ?_) (fun rest h => ?_)
    · rcases hx with rfl | rfl <;> cases h <;> rfl
    · rcases hx with rfl | rfl <;> cases h
  have hexponent : exponentPart? (x :: hex) = none := by
    simp only [List.mem_cons, List.not_mem_nil, or_false] at hx
    rcases hx with rfl | rfl <;> rfl
  have h := hsplit.decimal?_eq
  rwa [hexponent] at h

theorem isNumeral_hex {x : Char} (hx : x ∈ ['x', 'X']) (hex : List Char) : IsNumeral ('0' :: x :: hex) ↔ IsWord hex := by
  refine ⟨fun h => ?_, .hex hx⟩
  generalize hcs : '0' :: x :: hex = cs at h
  cases h with
  | blank => cases hcs
  | infinity hsign =>
    simp only [signs, List.mem_cons, List.not_mem_nil, or_false] at hsign
    rcases hsign with rfl | rfl | rfl <;> cases hcs
  | hex _ hds =>
    cases hcs
    exact hds
  | decimal hsign hdecimal =>
    have h := (signedDecimal?_isSome _).2 ⟨_, hsign, _, hcs, hdecimal⟩
    rw [show signedDecimal? ('0' :: x :: hex) = decimal? ('0' :: x :: hex) from rfl, decimal?_hex hx] at h
    cases h

theorem isPlusHex_hex {x : Char} (hx : x ∈ ['x', 'X']) (hex : List Char) :
    IsPlusHex ('0' :: x :: hex) ↔ ∃ ds, hex = '+' :: ds ∧ IsWord ds := by
  constructor
  · rintro ⟨y, ds, -, h, hds⟩
    cases h
    exact ⟨ds, rfl, hds⟩
  · rintro ⟨ds, rfl, hds⟩
    exact ⟨x, ds, hx, rfl, hds⟩

theorem isNumeral_other {cs : List Char} (hblank : cs ≠ []) (hhex : Scanner.startsHex cs = false) :
    IsNumeral cs ∨ IsPlusHex cs ↔
      ((cs = "Infinity".toList ∨ cs = "+Infinity".toList) ∨ cs = "-Infinity".toList) ∨ (signedDecimal? cs).isSome = true := by
  have hnot : ∀ x hex, x ∈ ['x', 'X'] → cs ≠ '0' :: x :: hex := by
    intro x hex hx h
    rw [startsHex_iff.2 ⟨x, hex, hx, h⟩] at hhex
    cases hhex
  rw [signedDecimal?_isSome]
  constructor
  · rintro (h | ⟨x, ds, hx, h, -⟩)
    · cases h with
      | blank => contradiction
      | infinity hsign =>
        simp only [signs, List.mem_cons, List.not_mem_nil, or_false] at hsign
        rcases hsign with rfl | rfl | rfl
        · exact .inl (.inl (.inl rfl))
        · exact .inl (.inl (.inr rfl))
        · exact .inl (.inr rfl)
      | hex hx => exact absurd rfl (hnot _ _ hx)
      | decimal hsign hds => exact .inr ⟨_, hsign, _, rfl, hds⟩
    · exact absurd h (hnot x _ hx)
  · rintro (((rfl | rfl) | rfl) | ⟨sign, hsign, ds, rfl, hds⟩)
    · exact .inl (@IsNumeral.infinity [] (by simp [signs]))
    · exact .inl (@IsNumeral.infinity ['+'] (by simp [signs]))
    · exact .inl (@IsNumeral.infinity ['-'] (by simp [signs]))
    · exact .inl (.decimal hsign hds)

theorem isNaN_ofText (s : String) :
    (ofText s).isNaN = false ↔ IsNumeral (Text.trim s.toList) ∨ IsPlusHex (Text.trim s.toList) := by
  have hnan : ¬ nan.isNaN = false := by decide +kernel
  by_cases hblank : Text.trim s.toList = []
  · rw [ofText_blank hblank, hblank]
    exact ⟨fun _ => .inl .blank, fun _ => by decide +kernel⟩
  · cases hhex : Scanner.startsHex (Text.trim s.toList) with
    | true =>
      obtain ⟨x, hex, hx, h⟩ := startsHex_iff.1 hhex
      rw [ofText_hex hx h, h, isNumeral_hex hx, isPlusHex_hex hx, ← plusUnsigned?_isSome]
      cases plusUnsigned? 16 (Nat.pow 2 64) hex with
      | none => exact iff_of_false hnan (by simp)
      | some n => exact ⟨fun _ => rfl, fun _ => isNaN_toFloat (UInt64.ofNat n)⟩
    | false =>
      rw [ofText_other hblank hhex, isNumeral_other hblank hhex]
      split
      case isTrue h => exact ⟨fun _ => .inl (.inl h), fun _ => by decide +kernel⟩
      case isFalse h =>
        split
        case isTrue h' => exact ⟨fun _ => .inl (.inr h'), fun _ => by decide +kernel⟩
        case isFalse h' =>
          simp only [h, h', false_or]
          cases hd : signedDecimal? (Text.trim s.toList) with
          | none => exact iff_of_false hnan (by simp)
          | some x => simpa using isNaN_of_signedDecimal? hd

/-! ## Number tokens -/

theorem scanExponent_whole {tail : List Char} (h : tail.length ≤ (Scanner.scanExponent tail).length) :
    tail = [] ∨ ∃ mark cs, mark ∈ ['e', 'E'] ∧ tail = mark :: cs ∧ Scanner.scanExponent tail = 'e' :: cs := by
  cases tail with
  | nil => exact .inl rfl
  | cons mark cs =>
    cases hmark : mark == 'e' || mark == 'E' with
    | false => simp [Scanner.scanExponent, hmark] at h
    | true =>
      refine .inr ⟨mark, cs, by simpa using hmark, rfl, ?_⟩
      simp only [Scanner.scanExponent, hmark, if_true] at h ⊢
      split at h
      case h_1 ds => rw [Scanner.takeWhile_whole (by simpa using h)]
      case h_2 ds => rw [Scanner.takeWhile_whole (by simpa using h)]
      case h_3 => rw [Scanner.takeWhile_whole (by simpa using h)]

theorem exponentPart?_scanExponent {tail : List Char} (h : tail.length ≤ (Scanner.scanExponent tail).length) :
    exponentPart? (Scanner.scanExponent tail) = exponentPart? tail ∧ NoDigit (Scanner.scanExponent tail) ∧
      ∀ rest, Scanner.scanExponent tail ≠ '.' :: rest := by
  obtain rfl | ⟨mark, cs, hmark, rfl, hscan⟩ := scanExponent_whole h
  · refine ⟨rfl, ?_, ?_⟩
    · intro c rest h
      cases h
    · intro rest h
      cases h
  · rw [hscan]
    refine ⟨?_, ?_, ?_⟩
    case refine_2 =>
      intro c rest h
      cases h
      rfl
    case refine_3 =>
      intro rest h
      cases h
    simp only [List.mem_cons, List.not_mem_nil, or_false] at hmark
    rcases hmark with rfl | rfl <;> rfl

theorem decimal?_of_scanDecimal {p : Scanner.Place} {x : Float} (h : (Scanner.scanDecimal p).kind = .number x)
    (hall : (Scanner.scanDecimal p).after.rest = []) : decimal? p.rest = some x := by
  obtain ⟨ds, fs, tail, hsplit⟩ := exists_split p.rest
  obtain ⟨m, hcs, hm, hagain⟩ := hsplit.scanMantissa_eq
  have hdrop : p.rest.drop m.length = tail := by rw [hcs, List.drop_left]
  simp only [Scanner.scanDecimal, hm, hdrop, Scanner.Place.drop_rest] at h hall
  have hlength : tail.length ≤ (Scanner.scanExponent tail).length := by
    have := List.drop_eq_nil_iff.1 hall
    rw [hcs, List.length_append, List.length_append] at this
    omega
  obtain ⟨hexponent, hdigit, hpoint⟩ := exponentPart?_scanExponent hlength
  have hvalue : decimal? (m ++ Scanner.scanExponent tail) = decimal? p.rest := by
    rw [(hagain _ hdigit hpoint).decimal?_eq, hsplit.decimal?_eq, hexponent]
  rw [hvalue] at h
  split at h
  · cases h
  · split at h
    · rename_i value hvalue
      cases h
      exact hvalue
    · cases h

theorem unsigned?_of_scanHex {p : Scanner.Place} {x : Float} (h : (Scanner.scanHex p).kind = .number x)
    (hall : (Scanner.scanHex p).after.rest = []) : ∃ n, unsigned? 16 (Nat.pow 2 64) p.rest = some n ∧ x = ofWord n := by
  simp only [Scanner.scanHex, Scanner.Place.drop_rest] at h hall
  rw [Scanner.takeWhile_whole (List.drop_eq_nil_iff.1 hall)] at h
  split at h
  · rename_i n hn
    cases h
    exact ⟨n, hn, rfl⟩
  · cases h

theorem plusUnsigned?_of_unsigned? {cs : List Char} {n : Nat} (h : unsigned? 16 (Nat.pow 2 64) cs = some n) :
    plusUnsigned? 16 (Nat.pow 2 64) cs = some n := by
  unfold plusUnsigned?
  split
  · have hword := (unsigned?_isSome _).1 (by rw [h]; rfl)
    exact absurd hword (not_isWord_plus _)
  · exact h

theorem signedDecimal?_of_startsNumber {cs : List Char} (h : Scanner.startsNumber cs = true) :
    signedDecimal? cs = decimal? cs := by
  unfold signedDecimal?
  split
  case h_3 => rfl
  all_goals
    rw [Scanner.startsNumber_cons (by decide)] at h
    cases h

theorem ofText_of_scan {s : String} {x : Float} {newline : Bool} {rest : List Token}
    (h : Scanner.scan (String.ofList (Text.trim s.toList)) =
      ⟨.number x, ⟨0, Scanner.byteSize (Text.trim s.toList)⟩, newline⟩ :: rest) : ofText s = x := by
  obtain ⟨hkind, hall⟩ := Scanner.lexeme_of_scan (by intro fault hf; cases hf) h
  have hblank : Text.trim s.toList ≠ [] := by
    intro hnil
    rw [hnil] at hkind
    cases hkind
  have hlexes := Scanner.lexes_lexeme (p := ⟨Text.trim s.toList, 0⟩) hblank
  generalize hl : Scanner.lexeme ⟨Text.trim s.toList, 0⟩ = l at hlexes hkind hall
  cases hlexes with
  | hex hhex =>
    obtain ⟨c, hex, hc, ht⟩ := startsHex_iff.1 hhex
    obtain ⟨n, hn, rfl⟩ := unsigned?_of_scanHex hkind hall
    rw [Scanner.Place.drop_rest, ht, List.drop_succ_cons, List.drop_succ_cons, List.drop_zero] at hn
    rw [ofText_hex hc ht, plusUnsigned?_of_unsigned? hn]
    rfl
  | decimal hstart hhex =>
    have hvalue : decimal? (Text.trim s.toList) = some x :=
      @decimal?_of_scanDecimal ⟨Text.trim s.toList, 0⟩ x hkind hall
    rw [ofText_other hblank hhex]
    simp only at hstart
    generalize Text.trim s.toList = cs at hstart hvalue
    rw [signedDecimal?_of_startsNumber hstart, hvalue, if_neg, if_neg]
    · rfl
    · rintro rfl
      cases hstart
    · rintro (rfl | rfl) <;> cases hstart
  | mark | unexpected => cases hkind
  | @string c cs =>
    obtain ⟨s, hs⟩ | ⟨fault, hf⟩ := Scanner.scanString_kind c cs (0 + 1) []
    · rw [hs] at hkind
      cases hkind
    · rw [hf] at hkind
      cases hkind
  | name =>
    simp only [Scanner.scanName] at hkind
    split at hkind <;> cases hkind

end Number

namespace Store

/-- **Which texts are numbers.** A text is read as a number, and not as NaN, when without the blanks around
it it is a numeral, or when it is one but for a plus sign behind `0x`. If it is scanned as one number token, it
has the value of that token. -/
theorem toNumber_numerals (store : Store) (s : String) :
    ((store.toNumber (.string s)).isNaN = false ↔
      Number.IsNumeral (Text.trim s.toList) ∨ Number.IsPlusHex (Text.trim s.toList)) ∧
    ∀ x newline rest,
      Scanner.scan (String.ofList (Text.trim s.toList)) =
        ⟨.number x, ⟨0, (String.ofList (Text.trim s.toList)).utf8ByteSize⟩, newline⟩ :: rest →
      store.toNumber (.string s) = x := by
  rw [show store.toNumber (.string s) = Number.ofText s from rfl]
  refine ⟨Number.isNaN_ofText s, fun x newline rest h => @Number.ofText_of_scan s x newline rest ?_⟩
  rw [h, ← Scanner.byteSize_toList, String.toList_ofList]

/-- A token between blanks, with a point that no digits follow and an exponent. -/
theorem toNumber_numerals_exponent :
    Number.IsNumeral (Text.trim " 1.E3\n".toList) ∧ Store.empty.toNumber (.string " 1.E3\n") = Number.ofDigits ['1'] 3 := by
  have hscan : Scanner.scan (String.ofList "1.E3".toList) =
      [⟨.number (Number.ofDigits ['1'] 3), ⟨0, 4⟩, false⟩, ⟨.eof, ⟨4, 4⟩, false⟩] := Scanner.scan_of_next rfl rfl
  have hsize : (String.ofList "1.E3".toList).utf8ByteSize = 4 := by decide +kernel
  have htrim : Text.trim " 1.E3\n".toList = "1.E3".toList := by decide +kernel
  obtain ⟨hnumeral, htoken⟩ := toNumber_numerals Store.empty " 1.E3\n"
  rw [htrim] at hnumeral htoken ⊢
  rw [hsize] at htoken
  refine ⟨(hnumeral.1 (by decide +kernel)).resolve_right ?_, htoken _ _ _ hscan⟩
  rintro ⟨x, ds, -, h, -⟩
  cases h

/-- The plus sign makes the difference: the text is read as a number and is no numeral. -/
theorem toNumber_plusHex :
    (Store.empty.toNumber (.string "0x+1F")).isNaN = false ∧ ¬ Number.IsNumeral (Text.trim "0x+1F".toList) := by
  refine ⟨by decide +kernel, fun h => ?_⟩
  exact Number.not_isWord_plus _ ((Number.isNumeral_hex (by decide) _).1 h)

end Store

end ScriptEngine
