/-
String literals. A character can be written as itself, by a named escape, by
its number in two or four hexadecimal digits, or behind a backslash; between
characters a backslash can stand in front of a line break. Main statement:
`scan_spelled`, every way to write a string is read as that string.
-/
import ScriptEngine.Proofs.Source.Segmentation
import Mathlib.Data.List.Forall2

namespace ScriptEngine.Scanner

/-! ## Ways to write a string -/

def hexForms (v : Nat) : List Char := [Nat.digitChar v, (Nat.digitChar v).toUpper]

def hexDigits : Nat → Nat → List Nat
  | 0, _ => []
  | width + 1, n => hexDigits width (n / 16) ++ [n % 16]

/-- A number written in so many hexadecimal digits, each in one of its forms. -/
def WritesHex (width n : Nat) (ds : List Char) : Prop :=
  List.Forall₂ (fun v d => d ∈ hexForms v) (hexDigits width n) ds

/-- The letters of the named escapes and what they stand for. -/
def namedEscapes : List (Char × Char) :=
  [('n', '\n'), ('r', '\r'), ('t', '\t'), ('b', '\x08'), ('f', '\x0c'), ('v', '\x0b'), ('0', '\x00')]

/-- The characters that mean something else behind a backslash. -/
def specialEscapes : List Char := namedEscapes.map Prod.fst ++ ['x', 'u', '\n', '\r']

/-- The ways to write one character between two quotes. -/
inductive Spells (quote : Char) : Char → List Char → Prop
  | raw {c : Char} : c ≠ quote → c ≠ '\\' → c ≠ '\n' → Spells quote c [c]
  | named {e c : Char} : (e, c) ∈ namedEscapes → Spells quote c ['\\', e]
  | byte {c : Char} {ds : List Char} : c.toNat < 256 → WritesHex 2 c.toNat ds → Spells quote c ('\\' :: 'x' :: ds)
  | unit {c : Char} {ds : List Char} : c.toNat < 65536 → WritesHex 4 c.toNat ds → Spells quote c ('\\' :: 'u' :: ds)
  | identity {c : Char} : c ∉ specialEscapes → Spells quote c ['\\', c]

def continuations : List (List Char) := [['\\', '\n'], ['\\', '\r'], ['\\', '\r', '\n']]

inductive Spelled (quote : Char) : List Char → List Char → Prop
  | nil : Spelled quote [] []
  | char {c : Char} {w s text : List Char} : Spells quote c w → Spelled quote s text →
      Spelled quote (c :: s) (w ++ text)
  | continuation {w s text : List Char} : w ∈ continuations → Spelled quote s text → Spelled quote s (w ++ text)

def literal (quote : Char) (text : List Char) : String := String.ofList (quote :: (text ++ [quote]))

/-! ## Reading them -/

theorem digitValue?_of_mem {v : Nat} (hv : v < 16) : ∀ d ∈ hexForms v, Number.digitValue? 16 d = some v := by
  have hall : ∀ v < 16, (hexForms v).all (fun d => Number.digitValue? 16 d == some v) = true := by decide +kernel
  exact fun d hd => eq_of_beq (List.all_eq_true.1 (hall v hv) d hd)

theorem hexValue_of_forall₂ {vs : List Nat} {ds : List Char} (h : List.Forall₂ (fun v d => d ∈ hexForms v) vs ds)
    (hvs : ∀ v ∈ vs, v < 16) : hexValue ds = some (vs.foldl (fun n v => n * 16 + v) 0) := by
  have hread : ds.all Number.isHexDigit = true ∧
      ∀ n, ds.foldl (fun n c => n * 16 + (Number.digitValue? 16 c).getD 0) n = vs.foldl (fun n v => n * 16 + v) n := by
    induction h with
    | nil => exact ⟨rfl, fun _ => rfl⟩
    | cons hd _ ih =>
      obtain ⟨hv, hvs⟩ := List.forall_mem_cons.1 hvs
      obtain ⟨hall, hfold⟩ := ih hvs
      have hvalue := digitValue?_of_mem hv _ hd
      exact ⟨by simp [Number.isHexDigit, hvalue, hall], fun n => by simp [hvalue, hfold]⟩
  rw [hexValue, if_pos hread.1, Number.digitsValue, hread.2]

theorem lt_of_mem_hexDigits {width n v : Nat} (h : v ∈ hexDigits width n) : v < 16 := by
  induction width generalizing n with
  | zero => simp [hexDigits] at h
  | succ width ih =>
    rcases List.mem_append.1 h with h | h
    · exact ih h
    · rw [List.mem_singleton.1 h]
      exact Nat.mod_lt _ (by decide)

theorem hexValue_of_writesHex {width n : Nat} {ds : List Char} (h : WritesHex width n ds)
    (hn : (hexDigits width n).foldl (fun n v => n * 16 + v) 0 = n) : hexValue ds = some n := by
  rw [hexValue_of_forall₂ h fun v hv => lt_of_mem_hexDigits hv, hn]

theorem charOf?_toNat (c : Char) : charOf? c.toNat = some c := by
  have hvalid : c.toNat.isValidChar := c.valid
  rw [charOf?, dif_pos hvalid]
  rfl

theorem letterEscape_named {e c : Char} (h : (e, c) ∈ namedEscapes) :
    letterEscape e = c ∧ e ≠ 'x' ∧ e ≠ 'u' ∧ e ≠ '\n' ∧ e ≠ '\r' := by
  revert h
  simp only [namedEscapes, List.mem_cons, Prod.mk.injEq, List.not_mem_nil, or_false]
  rintro (⟨rfl, rfl⟩ | ⟨rfl, rfl⟩ | ⟨rfl, rfl⟩ | ⟨rfl, rfl⟩ | ⟨rfl, rfl⟩ | ⟨rfl, rfl⟩ | ⟨rfl, rfl⟩) <;> decide

theorem letterEscape_identity {c : Char} (h : c ∉ specialEscapes) :
    letterEscape c = c ∧ c ≠ 'x' ∧ c ≠ 'u' ∧ c ≠ '\n' ∧ c ≠ '\r' := by
  simp only [specialEscapes, namedEscapes, List.map_cons, List.map_nil, List.cons_append, List.nil_append,
    List.mem_cons, List.not_mem_nil, or_false, not_or] at h
  obtain ⟨hn, hr, ht, hb, hf, hv, h0, hx, hu, hlf, hcr⟩ := h
  exact ⟨by simp [letterEscape, hn, hr, ht, hb, hf, hv, h0], hx, hu, hlf, hcr⟩

section

variable {quote c : Char} {w s text : List Char}

theorem Spells.chunk (h : Spells quote c w) (rest acc : List Char) : Chunk quote rest acc w (c :: acc) := by
  cases h with
  | raw hq hb hn => exact .raw hn hb hq
  | named h =>
    obtain ⟨rfl, hx, hu, hn, hr⟩ := letterEscape_named h
    exact .letter hx hu hn hr
  | byte hc hds =>
    obtain ⟨_, _, rfl⟩ := List.length_eq_two.1 hds.length_eq.symm
    have hvalue : (hexDigits 2 c.toNat).foldl (fun n v => n * 16 + v) 0 = c.toNat := by
      simp only [hexDigits, List.cons_append, List.nil_append, List.foldl]
      omega
    exact .byteEscape (by rw [hexValue_of_writesHex hds hvalue, Option.bind_some, charOf?_toNat])
  | unit hc hds =>
    obtain ⟨_, _, _, _, rfl⟩ := List.length_eq_four.1 hds.length_eq.symm
    have hvalue : (hexDigits 4 c.toNat).foldl (fun n v => n * 16 + v) 0 = c.toNat := by
      simp only [hexDigits, List.cons_append, List.nil_append, List.foldl]
      omega
    exact .unitEscape (by rw [hexValue_of_writesHex hds hvalue, Option.bind_some, charOf?_toNat])
  | identity h =>
    obtain ⟨he, hx, hu, hn, hr⟩ := letterEscape_identity h
    have hletter : Chunk quote rest acc ['\\', c] (letterEscape c :: acc) := .letter hx hu hn hr
    rwa [he] at hletter

theorem Spelled.ne_lineFeed_cons (h : Spelled quote s text) (hq : quote ≠ '\n') (rest ds : List Char) :
    text ++ ([quote] ++ rest) ≠ '\n' :: ds := by
  cases h with
  | nil => simp [hq]
  | char hw _ => cases hw <;> simp_all
  | continuation hw _ =>
    simp only [continuations, List.mem_cons, List.not_mem_nil, or_false] at hw
    rcases hw with rfl | rfl | rfl <;> simp

theorem Spelled.continuation_chunk (hw : w ∈ continuations) (h : Spelled quote s text) (hq : quote ≠ '\n')
    (rest acc : List Char) : Chunk quote (text ++ ([quote] ++ rest)) acc w acc := by
  simp only [continuations, List.mem_cons, List.not_mem_nil, or_false] at hw
  rcases hw with rfl | rfl | rfl
  · exact .lineFeed
  · exact .carriageReturn (h.ne_lineFeed_cons hq rest)
  · exact .returnFeed

theorem Spelled.scanString (h : Spelled quote s text) (hn : quote ≠ '\n') (hb : quote ≠ '\\') (rest : List Char)
    (offset : Nat) (acc : List Char) :
    scanString quote (text ++ ([quote] ++ rest)) offset acc =
      ⟨.string (String.ofList (acc.reverse ++ s)), ⟨rest, offset + byteSize (text ++ [quote])⟩⟩ := by
  induction h generalizing offset acc with
  | nil => rw [List.nil_append, scanString_quote hn hb, List.append_nil, List.nil_append]
  | char hw _ ih =>
    rw [List.append_assoc, scanString_chunk (hw.chunk _ acc), ih]
    simp [Nat.add_assoc]
  | continuation hw htext ih =>
    rw [List.append_assoc, scanString_chunk (continuation_chunk hw htext hn rest acc), ih, List.append_assoc,
      byteSize_append _ (_ ++ _), Nat.add_assoc]

end

/-- Whatever string is written between two quotes, and however, the literal is one token and the token
is that string. -/
theorem scan_spelled {quote : Char} (hq : quote = '"' ∨ quote = '\'') {s : String} {text : List Char}
    (h : Spelled quote s.toList text) :
    scan (literal quote text) =
      [⟨.string s, ⟨0, (literal quote text).utf8ByteSize⟩, false⟩,
        ⟨.eof, ⟨(literal quote text).utf8ByteSize, (literal quote text).utf8ByteSize⟩, false⟩] := by
  have hsize : quote.utf8Size = 1 := by rcases hq with rfl | rfl <;> rfl
  have hgap : startsGap (quote :: (text ++ [quote])) = false := by rcases hq with rfl | rfl <;> rfl
  have hn : quote ≠ '\n' := by rcases hq with rfl | rfl <;> decide
  have hb : quote ≠ '\\' := by rcases hq with rfl | rfl <;> decide
  have hlexeme : lexeme ⟨quote :: (text ++ [quote]), 0⟩ =
      ⟨.string s, ⟨[], byteSize (quote :: (text ++ [quote]))⟩⟩ := by
    rw [lexeme_string (by simpa using hq), ← List.append_nil [quote], h.scanString hn hb]
    simp [hsize]
  rw [← byteSize_toList, literal, String.toList_ofList]
  refine scan_of_next rfl ?_
  rw [next, skipGap_none hgap]
  simp only [hlexeme]

/-- Each way to write a character, and each continuation, in one literal. -/
theorem scan_spelled_mixed :
    Spelled '"' "a\"\n\xe9€0b".toList "a\\\"\\n\\\r\\xE9\\\r\n\\u20aC\x30\\\nb".toList ∧
      scan (literal '"' "a\\\"\\n\\\r\\xE9\\\r\n\\u20aC\x30\\\nb".toList) =
        [⟨.string "a\"\n\xe9€0b", ⟨0, 26⟩, false⟩, ⟨.eof, ⟨26, 26⟩, false⟩] := by
  have h : Spelled '"' "a\"\n\xe9€0b".toList "a\\\"\\n\\\r\\xE9\\\r\n\\u20aC\x30\\\nb".toList :=
    .char (w := ['a']) (.raw (by decide) (by decide) (by decide)) <|
    .char (w := ['\\', '"']) (.identity (by decide)) <|
    .char (w := ['\\', 'n']) (.named (by decide)) <|
    .continuation (w := ['\\', '\r']) (by decide) <|
    .char (w := ['\\', 'x', 'E', '9']) (.byte (by decide) (.cons (by decide) (.cons (by decide) .nil))) <|
    .continuation (w := ['\\', '\r', '\n']) (by decide) <|
    .char (w := ['\\', 'u', '2', '0', 'a', 'C'])
      (.unit (by decide) (.cons (by decide) (.cons (by decide) (.cons (by decide) (.cons (by decide) .nil))))) <|
    .char (w := ['0']) (.raw (by decide) (by decide) (by decide)) <|
    .continuation (w := ['\\', '\n']) (by decide) <|
    .char (w := ['b']) (.raw (by decide) (by decide) (by decide)) .nil
  exact ⟨h, scan_spelled (.inl rfl) h⟩

end ScriptEngine.Scanner
