/-
Keys that stand for indices. They are the decimal numerals, but zeros and a plus
sign in front of a numeral are let through. An array has room for every such index
that was written to, and a string gives the character at one. Main statement:
`index_keys`.
-/
import ScriptEngine.Proofs.Heap.Journal
import ScriptEngine.Proofs.Number.Numeral
import ScriptEngine.Proofs.Number.Whole

namespace ScriptEngine

namespace Number

/-! ## Decimal numerals -/

/-- The decimal numeral of a number, behind any zeros. -/
def IsPadded (i : Nat) (ds : List Char) : Prop := ∃ zeros, ds = List.replicate zeros '0' ++ Nat.toDigits 10 i

theorem isDigit_iff {c : Char} : isDigit c = true ↔ 48 ≤ c.toNat ∧ c.toNat ≤ 57 := by
  rw [isDigit, Bool.and_eq_true, decide_eq_true_eq, decide_eq_true_eq]
  exact Iff.rfl

theorem digitValue?_ten (c : Char) : digitValue? 10 c = if isDigit c then some (c.toNat - 48) else none := by
  have hdigit : ('0' ≤ c ∧ c ≤ '9') = (isDigit c = true) := by simp [isDigit]
  simp only [digitValue?, hdigit]
  split
  case isTrue h => exact if_pos (by have := isDigit_iff.1 h; change c.toNat - 48 < 10; omega)
  case isFalse => exact if_neg (by split <;> [omega; split <;> omega])

theorem digitChar_of_isDigit {c : Char} (h : isDigit c = true) : (c.toNat - 48).digitChar = c := by
  obtain ⟨hlow, hhigh⟩ := isDigit_iff.1 h
  refine Char.toNat_inj.1 ?_
  rw [Nat.toNat_digitChar_of_lt_ten (by omega)]
  omega

theorem digitsValue_eq {ds : List Char} (h : ∀ d ∈ ds, isDigit d = true) : digitsValue 10 ds = Nat.ofDigitChars 10 ds 0 := by
  rw [Nat.ofDigitChars_eq_foldl]
  refine List.foldl_ext _ _ 0 fun n d hd => ?_
  rw [digitValue?_ten, if_pos (h d hd), Option.getD_some, Nat.mul_comm]
  rfl

theorem isPadded_ofDigitChars {ds : List Char} (hne : ds ≠ []) (h : ∀ d ∈ ds, isDigit d = true) :
    IsPadded (Nat.ofDigitChars 10 ds 0) ds := by
  induction ds using List.reverseRecOn with
  | nil => exact absurd rfl hne
  | append_singleton ds d ih =>
    obtain ⟨hds, hd⟩ := List.forall_mem_append.1 h
    have hd := hd d (List.mem_singleton_self d)
    have hlt : d.toNat - 48 < 10 := by have := isDigit_iff.1 hd; omega
    have hlast : Nat.toDigits 10 (d.toNat - 48) = [d] := by rw [Nat.toDigits_of_lt_base hlt, digitChar_of_isDigit hd]
    have hvalue : Nat.ofDigitChars 10 (ds ++ [d]) 0 = 10 * Nat.ofDigitChars 10 ds 0 + (d.toNat - 48) :=
      Nat.ofDigitChars_append 0
    rw [hvalue]
    by_cases hempty : ds = []
    · exact ⟨0, by rw [hempty, Nat.ofDigitChars_nil, Nat.mul_zero, Nat.zero_add, hlast]; rfl⟩
    obtain ⟨zeros, hzeros⟩ := ih hempty hds
    generalize Nat.ofDigitChars 10 ds 0 = n at hzeros
    rcases Nat.eq_zero_or_pos n with rfl | hn
    · refine ⟨zeros + 1, ?_⟩
      rw [hzeros, Nat.mul_zero, Nat.zero_add, hlast, List.replicate_succ', Nat.toDigits_zero]
    · refine ⟨zeros, ?_⟩
      rw [← Nat.toDigits_append_toDigits (by decide) hn hlt, hlast, ← List.append_assoc, ← hzeros]

theorem IsPadded.digits {i : Nat} {ds : List Char} (h : IsPadded i ds) : Digits ds ∧ Nat.ofDigitChars 10 ds 0 = i := by
  obtain ⟨zeros, rfl⟩ := h
  refine ⟨⟨fun hnil => Nat.toDigits_ne_nil (List.append_eq_nil_iff.1 hnil).2, fun d hd => ?_⟩, ?_⟩
  · rcases List.mem_append.1 hd with hd | hd
    · rw [List.eq_of_mem_replicate hd]
      rfl
    · exact Nat.isDigit_of_mem_toDigits (by decide) (by decide) hd
  · rw [Nat.ofDigitChars_append, Nat.ofDigitChars_replicate_zero, Nat.mul_zero, Nat.ofDigitChars_ten_toDigits]

theorem isPadded_iff {i : Nat} {ds : List Char} : IsPadded i ds ↔ Digits ds ∧ digitsValue 10 ds = i := by
  constructor
  · intro h
    obtain ⟨hds, hvalue⟩ := h.digits
    exact ⟨hds, (digitsValue_eq hds.2).trans hvalue⟩
  · rintro ⟨⟨hne, hds⟩, rfl⟩
    exact digitsValue_eq hds ▸ isPadded_ofDigitChars hne hds

theorem unsigned?_eq_some {limit i : Nat} {ds : List Char} : unsigned? 10 limit ds = some i ↔ i < limit ∧ IsPadded i ds := by
  have hcapped : digitsValueUpTo limit 10 ds = digitsValue 10 ds ∨
      limit ≤ digitsValueUpTo limit 10 ds ∧ limit ≤ digitsValue 10 ds := foldl_upTo limit 10 0 0 (by decide) ds (.inl rfl)
  have hdigits : (ds.isEmpty || ds.any fun c => (digitValue? 10 c).isNone) = true ↔ ¬ Digits ds := by
    rw [Bool.or_eq_true, List.isEmpty_iff, List.any_eq_true, Digits, not_and_or]
    simp [digitValue?_ten]
  rw [isPadded_iff, unsigned?]
  by_cases hds : Digits ds
  · rw [if_neg (hdigits.not.2 (not_not.2 hds)), Option.ite_none_right_eq_some]
    simp only [hds, true_and, Option.some.injEq]
    omega
  · rw [if_pos (hdigits.2 hds)]
    simp [hds]

theorem plusUnsigned?_eq_some {limit i : Nat} {cs : List Char} :
    plusUnsigned? 10 limit cs = some i ↔ i < limit ∧ ∃ sign ∈ [[], ['+']], ∃ ds, cs = sign ++ ds ∧ IsPadded i ds := by
  have hplus : ∀ ds, ¬ IsPadded i ('+' :: ds) := fun ds h => by cases h.digits.1.head
  unfold plusUnsigned?
  split
  case h_1 cs => simp [unsigned?_eq_some, hplus]
  case h_2 hno =>
    rw [unsigned?_eq_some]
    refine and_congr_right fun _ => ⟨fun h => ⟨[], by simp, _, rfl, h⟩, ?_⟩
    rintro ⟨sign, hsign, ds, rfl, h⟩
    simp only [List.mem_cons, List.not_mem_nil, or_false] at hsign
    rcases hsign with rfl | rfl
    · exact h
    · exact absurd rfl (hno ds)

end Number

/-- The key is the decimal numeral of a number, behind any zeros and perhaps a plus sign. -/
def StandsFor (key : String) (i : Nat) : Prop :=
  ∃ sign ∈ [[], ['+']], ∃ zeros, key.toList = sign ++ (List.replicate zeros '0' ++ (toString i).toList)

theorem standsFor_iff {key : String} {limit i : Nat} :
    Number.plusUnsigned? 10 limit key.toList = some i ↔ i < limit ∧ StandsFor key i := by
  rw [Number.plusUnsigned?_eq_some, StandsFor, Nat.toString_eq_ofList_toDigits, String.toList_ofList]
  refine and_congr_right fun _ => exists_congr fun sign => and_congr_right fun _ => ?_
  constructor
  · rintro ⟨ds, hkey, zeros, rfl⟩
    exact ⟨zeros, hkey⟩
  · rintro ⟨zeros, hkey⟩
    exact ⟨_, hkey, zeros, rfl⟩

theorem StandsFor.unique {key : String} {i k : Nat} (hi : StandsFor key i) (hk : StandsFor key k) : i = k := by
  have hi' := standsFor_iff.2 ⟨Nat.lt_of_le_of_lt (Nat.le_max_left i k) (Nat.lt_succ_self _), hi⟩
  have hk' := standsFor_iff.2 ⟨Nat.lt_of_le_of_lt (Nat.le_max_right i k) (Nat.lt_succ_self _), hk⟩
  exact Option.some.inj (hi'.symm.trans hk')

theorem standsFor_toString (i : Nat) : StandsFor (toString i) i := ⟨[], List.mem_cons_self .., 0, rfl⟩

theorem not_standsFor_length (i : Nat) : ¬ StandsFor "length" i := fun h => by
  cases standsFor_iff.2 ⟨Nat.lt_succ_self i, h⟩

/-! ## The length of an array -/

def Change.written? : Change → Option String
  | .set _ key _ => some key
  | .delete _ => none

/-- How long an array of length `m` is after a change to its elements. -/
def Change.lengthen (m : Nat) (change : Change) : Nat :=
  (change.written?.bind arrayIndex?).elim m fun i => max m (i + 1)

/-- The lengths that an array had to have: the one it was made with, and those that have room for the
indices which were written to. -/
def lengths (n : Nat) (changes : List Change) : Set Nat :=
  {m | m = n ∨ ∃ key ∈ changes.filterMap Change.written?, ∃ i < 2 ^ 32, StandsFor key i ∧ m = i + 1}

/-- **What one change does to the length.** -/
theorem value?_length_enter {j : Journal} {m : Nat} (hm : m < 2 ^ 64)
    (h : j.value? "length" = some (.number (Number.ofWord m))) {change : Change} (hw : change.written? ≠ some "length") :
    (change.enter .array j).value? "length" = some (.number (Number.ofWord (change.lengthen m))) := by
  cases change with
  | delete key =>
    rw [Change.enter]
    split
    case isTrue => exact h
    case isFalse hne =>
      rw [Journal.value?, if_neg fun heq => hne ⟨rfl, heq⟩]
      exact h
  | set store key v =>
    have hnumber : store.toNumber (.number (Number.ofWord m)) = Number.ofWord m := rfl
    simp only [Change.enter, List.cons_append, Journal.value?, if_neg fun heq => hw (congrArg some heq)]
    simp only [Change.lengthen, Change.written?, Option.bind_some, Journal.growth?, h, hnumber, bind, Option.bind_some]
    cases hi : arrayIndex? key with
    | none => exact h
    | some i =>
      have hlt : i < 2 ^ 32 := (standsFor_iff.1 hi).1
      simp only [Option.bind_some, ge_iff_le, Number.ofWord_le_iff hm (Nat.lt_trans hlt (by decide)), Option.elim_some]
      by_cases hle : m ≤ i
      · rw [if_pos hle, Nat.max_eq_right (Nat.le_succ_of_le hle),
          ← Number.ofWord_add_one (Nat.lt_trans hlt (by decide))]
        rfl
      · rw [if_neg hle, Nat.max_eq_left (Nat.lt_of_not_le hle)]
        exact h

theorem lengths_snoc (n : Nat) (changes : List Change) (change : Change) :
    lengths n (changes ++ [change]) = lengths n changes ∪ {m | ∃ i, change.written?.bind arrayIndex? = some i ∧ m = i + 1} := by
  ext m
  have hlast : (∃ key ∈ [change].filterMap Change.written?, ∃ i < 2 ^ 32, StandsFor key i ∧ m = i + 1) ↔
      ∃ i, change.written?.bind arrayIndex? = some i ∧ m = i + 1 := by
    cases change <;> simp [Change.written?, arrayIndex?, standsFor_iff, and_assoc]
  change m = n ∨ _ ↔ (m = n ∨ _) ∨ _
  simp only [List.filterMap_append, List.mem_append, or_and_right, exists_or, hlast, or_assoc, Set.mem_ofPred_eq]

theorem isGreatest_lengths (n : Nat) (changes : List Change) :
    IsGreatest (lengths n changes) (changes.foldl Change.lengthen n) := by
  induction changes using List.reverseRecOn with
  | nil =>
    refine ⟨.inl rfl, fun m hm => ?_⟩
    rcases hm with rfl | ⟨key, hkey, -⟩
    · exact Nat.le_refl m
    · cases hkey
  | append_singleton changes change ih =>
    rw [List.foldl_append, lengths_snoc]
    simp only [List.foldl_cons, List.foldl_nil, Change.lengthen]
    cases change.written?.bind arrayIndex? with
    | none => simpa using ih
    | some i => simpa using ih.union (isGreatest_singleton (a := i + 1))

theorem lengthen_lt {n : Nat} (hn : n < 2 ^ 64) (changes : List Change) : changes.foldl Change.lengthen n < 2 ^ 64 := by
  rcases (isGreatest_lengths n changes).1 with hm | ⟨key, -, i, hi, -, hm⟩ <;> omega

/-- **The length is the largest that was asked for.** -/
theorem get?_length {n : Nat} (hn : n < 2 ^ 64) {changes : List Change} (hw : "length" ∉ changes.filterMap Change.written?) :
    (changes.foldl Change.apply (.array n)).get? "length" =
      some (.number (Number.ofWord (changes.foldl Change.lengthen n))) := by
  refine (((Object.follows_beginning (.array n)).foldl changes).get?_eq "length").trans ?_
  induction changes using List.reverseRecOn with
  | nil => rfl
  | append_singleton changes change ih =>
    rw [List.filterMap_append, List.mem_append, not_or] at hw
    rw [List.foldl_append, List.foldl_append]
    refine value?_length_enter (lengthen_lt hn changes) (ih hw.1) fun hchange => hw.2 ?_
    simp [hchange]

/-! ## The characters of a string -/

namespace Store

variable {store : Store} {t key : String}

theorem property_of_standsFor {i : Nat} {c : Char} (ht : t.length ≤ 2 ^ 64) (h : StandsFor key i) (hc : t.toList[i]? = some c) :
    store.property (.string t) key = .string c.toString := by
  have hi : i < t.length := (List.getElem?_eq_some_iff.1 hc).1
  have hkey : key ≠ "length" := fun heq => not_standsFor_length i (heq ▸ h)
  have hchar : characterAt? t key = some c := by
    have hindex := standsFor_iff.2 ⟨Nat.lt_of_lt_of_le hi ht, h⟩
    exact (congrArg (· >>= (t.toList[·]?)) hindex).trans hc
  simp [property, hkey, hchar]

theorem property_of_not_standsFor (hkey : key ≠ "length") (h : ∀ i < t.length, ¬ StandsFor key i) :
    store.property (.string t) key = .undefined := by
  have hchar : characterAt? t key = none := by
    rw [characterAt?]
    cases hi : Number.plusUnsigned? 10 (Nat.pow 2 64) key.toList with
    | none => rfl
    | some i =>
      refine List.getElem?_eq_none (Nat.le_of_not_lt fun hlt => ?_)
      exact h i hlt (standsFor_iff.1 hi).2
  simp [property, hkey, hchar]

theorem mem_loopKeys (ht : t.length ≤ 2 ^ 64) :
    key ∈ store.loopKeys (.string t) ↔ (∃ i : Nat, key = toString i) ∧ store.property (.string t) key ≠ .undefined := by
  rw [loopKeys, List.mem_map]
  constructor
  · rintro ⟨i, hi, rfl⟩
    have hc := List.getElem?_eq_getElem (l := t.toList) (List.mem_range.1 hi)
    rw [property_of_standsFor ht (standsFor_toString i) hc]
    exact ⟨⟨i, rfl⟩, by simp⟩
  · rintro ⟨⟨i, rfl⟩, hread⟩
    refine ⟨i, List.mem_range.2 (Nat.lt_of_not_le fun hle => hread ?_), rfl⟩
    refine property_of_not_standsFor (fun heq => not_standsFor_length i (heq ▸ standsFor_toString i)) fun k hk h => ?_
    cases h.unique (standsFor_toString i)
    exact absurd hk (Nat.not_lt.2 hle)

end Store

/-- **Which keys are indices.** The length of an array is the largest of the one it was made with and
those that the indices which were written to need, where zeros and a plus sign in front of the numeral do not
matter; writes to other keys leave it alone, and so do deletions. A string has a character at the same keys, for
the positions that it has. Of them a loop visits the plain numerals. -/
theorem index_keys {n : Nat} (hn : n < 2 ^ 64) {changes : List Change} (hw : "length" ∉ changes.filterMap Change.written?)
    (store : Store) {t : String} (ht : t.length ≤ 2 ^ 64) :
    let o := changes.foldl Change.apply (.array n)
    (∃ m, IsGreatest (lengths n changes) m ∧ o.get? "length" = some (.number (Number.ofWord m))) ∧
    (∀ heap key v, key ≠ "length" → (∀ i < 2 ^ 32, ¬ StandsFor key i) →
      ((Change.set heap key v).apply o).get? "length" = o.get? "length") ∧
    (∀ key i c, StandsFor key i → t.toList[i]? = some c → store.property (.string t) key = .string c.toString) ∧
    (∀ key ≠ "length", (∀ i < t.length, ¬ StandsFor key i) → store.property (.string t) key = .undefined) ∧
    ∀ key, key ∈ store.loopKeys (.string t) ↔ (∃ i : Nat, key = toString i) ∧ store.property (.string t) key ≠ .undefined := by
  intro o
  refine ⟨⟨_, isGreatest_lengths n changes, get?_length hn hw⟩, fun heap key v hkey hno => ?_,
    fun key i c => Store.property_of_standsFor ht, fun key => Store.property_of_not_standsFor, fun key => Store.mem_loopKeys ht⟩
  have hindex : arrayIndex? key = none := Option.eq_none_iff_forall_ne_some.2 fun i hi =>
    hno i (standsFor_iff.1 hi).1 (standsFor_iff.1 hi).2
  have hw' : "length" ∉ (changes ++ [Change.set heap key v]).filterMap Change.written? := by
    simp [Change.written?, hkey.symm, hw]
  have hnext := get?_length hn hw'
  rw [List.foldl_append, List.foldl_append] at hnext
  refine hnext.trans ((get?_length hn hw).trans ?_).symm
  simp [Change.lengthen, Change.written?, hindex]

/-- A deletion does not shorten an array, and zeros do not count. -/
theorem index_keys_deleted :
    ([.set .empty "005" .null, .delete "005"].foldl Change.apply (.array 2)).get? "length" =
      some (.number (Number.ofWord 6)) ∧ Store.empty.property (.string "abc") "2" = .string "c" := by
  have hw : "length" ∉ [.set .empty "005" .null, .delete "005"].filterMap Change.written? := by simp [Change.written?]
  obtain ⟨⟨m, hm, hlength⟩, -, hread, -⟩ := index_keys (n := 2) (by decide) hw .empty (t := "abc") (by decide)
  have hsix : m = 6 := hm.unique (isGreatest_lengths 2 _)
  exact ⟨hsix ▸ hlength, hread "2" 2 'c' (standsFor_toString 2) rfl⟩

/-- A plus sign does not make a numeral, but it makes a key that an array grows for and a string answers to. -/
theorem index_keys_plus :
    (∀ i : Nat, "+5" ≠ toString i) ∧
    ((Change.set .empty "+5" .null).apply (.array 0)).get? "length" = some (.number (Number.ofWord 6)) ∧
    Store.empty.property (.string "abc") "+1" = .string "b" ∧ "+1" ∉ Store.empty.loopKeys (.string "abc") := by
  have hw : "length" ∉ [.set .empty "+5" .null].filterMap Change.written? := by simp [Change.written?]
  refine ⟨fun i heq => ?_, get?_length (n := 0) (by decide) hw,
    Store.property_of_standsFor (i := 1) (t := "abc") (by decide) ⟨['+'], by simp, 0, rfl⟩ rfl, by decide +kernel⟩
  have hlist : ['+', '5'] = Nat.toDigits 10 i := by
    rw [← String.toList_ofList (l := Nat.toDigits 10 i), ← Nat.toString_eq_ofList_toDigits, ← heq]
    rfl
  have hdigits : Number.Digits ['+', '5'] := (Number.IsPadded.digits ⟨0, hlist⟩).1
  cases hdigits.head

end ScriptEngine
