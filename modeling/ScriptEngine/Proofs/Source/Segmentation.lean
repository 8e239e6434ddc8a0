/-
Scanning cuts a text into gaps and lexemes. `next` takes a gap and a lexeme
behind it (`next_taken`), `scan` repeats it up to the end of the text
(`Scans.each`). Main statements: `scan_segments`, that the spans of the tokens and
the gaps between them make up the text, and `newlineBefore_iff`, what counts as a
line break in front of a token.
-/
import ScriptEngine.Proofs.Source.Gap
import ScriptEngine.Proofs.Source.Lexeme

namespace ScriptEngine.Scanner

variable {w : List Char} {p : Place} {ts : List Token} {t : Token} {source : String}

/-! ## One token -/

theorem startsGap_append (rest : List Char) (h : startsGap w = true) : startsGap (w ++ rest) = true := by
  unfold startsGap at h
  split at h
  · rfl
  · rfl
  · rename_i c w _ _
    have hslash : c ≠ '/' := by
      rintro rfl
      cases h
    rw [List.cons_append, startsGap_cons (fun _ hc _ => hslash hc) (fun _ hc _ => hslash hc), h]
  · cases h

theorem skipGap_none (h : startsGap w = false) (offset : Nat) (newline : Bool) :
    skipGap .blank w offset newline = ⟨⟨w, offset⟩, newline, none⟩ := by
  cases w with
  | nil => rfl
  | cons c cs =>
    have hline : ∀ ds, c = '/' → cs = '/' :: ds → False := by
      rintro ds rfl rfl
      cases h
    have hblock : ∀ ds, c = '/' → cs = '*' :: ds → False := by
      rintro ds rfl rfl
      cases h
    rw [startsGap_cons hline hblock] at h
    have hterminator : ¬ Text.isLineTerminator c = true := fun hc => by
      rw [Text.isBlank_of_isLineTerminator hc] at h
      cases h
    rw [skipGap, if_neg hterminator, if_neg (by simp [h])]
    · exact hline
    · exact hblock

theorem lexeme_not_eof (hp : p.rest ≠ []) : (lexeme p).kind.isEof = false := by
  have hl := lexes_lexeme hp
  generalize lexeme p = l at hl
  cases hl with
  | hex =>
    simp only [scanHex]
    split <;> rfl
  | decimal =>
    simp only [scanDecimal]
    split
    · rfl
    · split <;> rfl
  | mark | unexpected => rfl
  | @string c cs =>
    obtain ⟨s, hs⟩ | ⟨fault, hf⟩ := scanString_kind c cs (p.offset + 1) []
    · rw [hs]; rfl
    · rw [hf]; rfl
  | name =>
    simp only [scanName]
    split <;> rfl

/-- From the first place a gap of these pieces leads to the second, and the token with this text
from there to the third. -/
structure Taken (p : Place) (ps : List Piece) (m : Place) (w : List Char) (q : Place) (t : Token) : Prop where
  gap : p.Reads (gapText ps) m
  isGap : IsGap ps m.rest
  text : m.Reads w q
  span : t.span = ⟨m.offset, q.offset⟩
  nonempty : t.kind.isEof = false → w ≠ []
  atEnd : t.kind.isEof = true → m.rest = []
  newline : t.kind ≠ .invalid .unterminatedComment → t.newlineBefore = ps.any Piece.breaksLine
  /-- Alone, the text is the same token and nothing more. -/
  alone : (∀ fault, t.kind ≠ .invalid fault) → ∀ start,
    next ⟨w, start⟩ = (⟨t.kind, ⟨start, start + byteSize w⟩, false⟩, ⟨[], start + byteSize w⟩)

theorem next_taken (p : Place) : ∃ ps m w, Taken p ps m w (next p).2 (next p).1 := by
  obtain ⟨cs, offset⟩ := p
  unfold next
  simp only
  split
  · rename_i start hopen
    obtain ⟨afterStar, h⟩ | ⟨w, ps, body, ⟨hreads, rfl, hgap⟩⟩ := skipGap_unclosed hopen
    · cases h
    · obtain ⟨v, hv⟩ := skipGap_reads .blank cs offset false
      have hrest := skipGap_open _ _ _ _ _ hopen
      refine ⟨ps, _, '/' :: '*' :: body, hreads, hgap, hreads.between hv (by simp [hrest]), rfl, by simp, ?_, ?_, ?_⟩
      · intro h
        cases h
      · intro h
        exact absurd rfl h
      · intro h
        exact absurd rfl (h _)
  · rename_i hclosed
    obtain ⟨w, ps, ⟨hreads, rfl, hgap⟩, hnewline, hstop⟩ := skipGap_closed hclosed
    generalize (skipGap .blank cs offset false).place = m at *
    by_cases hm : m.rest = []
    · have hl : lexeme m = ⟨.eof, m⟩ := by
        unfold lexeme
        split
        · rfl
        · simp_all
      refine ⟨ps, m, [], hreads, hgap, ?_, ?_, ?_, fun _ => hm, fun _ => by simpa using hnewline, ?_⟩
      · rw [hl]; exact .refl m
      · rw [hl]
      · rw [hl]
        intro h
        cases h
      · intro _ start
        rw [hl]
        rfl
    · obtain ⟨w, hne, hw⟩ := lexeme_reads hm
      have hstop' : startsGap w = false := by
        refine Bool.eq_false_iff.2 fun h => ?_
        rw [hw.rest, startsGap_append _ h] at hstop
        cases hstop
      refine ⟨ps, m, w, hreads, hgap, hw, rfl, fun _ => hne, ?_, fun _ => by simpa using hnewline, ?_⟩
      · intro h
        rw [lexeme_not_eof hm] at h
        cases h
      · intro hk start
        simp only [next, skipGap_none hstop', lexeme_alone hm hw hk]

/-! ## All tokens -/

/-- The tokens from a place on: the next one again and again, up to the end of input. -/
inductive Scans : Place → List Token → Prop
  | last {p : Place} : (next p).1.kind.isEof = true → Scans p [(next p).1]
  | cons {p : Place} {ts : List Token} : (next p).1.kind.isEof = false → Scans (next p).2 ts → Scans p ((next p).1 :: ts)

theorem scanFrom_eq (p : Place) (before : Array Token) :
    scanFrom p before =
      if (next p).1.kind.isEof = true then before.push (next p).1
      else scanFrom (next p).2 (before.push (next p).1) := by
  rw [scanFrom]
  rfl

theorem scanFrom_scans (p : Place) (before : Array Token) :
    ∃ ts, (scanFrom p before).toList = before.toList ++ ts ∧ Scans p ts := by
  induction hlen : p.rest.length using Nat.strong_induction_on generalizing p before with
  | h n ih =>
    rw [scanFrom_eq]
    split
    · rename_i ht
      exact ⟨[(next p).1], by simp, .last ht⟩
    · rename_i ht
      have ht : (next p).1.kind.isEof = false := by simpa using ht
      obtain ⟨ts, hts, hscans⟩ := ih _ (hlen ▸ next_length ht) (next p).2 (before.push (next p).1) rfl
      exact ⟨(next p).1 :: ts, by simp [hts], .cons ht hscans⟩

theorem scan_scans (source : String) : Scans (.start source) (scan source) := by
  obtain ⟨ts, hts, hscans⟩ := scanFrom_scans (.start source) #[]
  have hscan : scan source = ts := hts
  rwa [hscan]

theorem Scans.unique {us : List Token} (h : Scans p ts) (h' : Scans p us) : ts = us := by
  induction h generalizing us with
  | last ht =>
    cases h' with
    | last => rfl
    | cons ht' => simp [ht] at ht'
  | cons ht _ ih =>
    cases h' with
    | last ht' => simp [ht] at ht'
    | cons _ h' => rw [ih h']

theorem Scans.head (h : Scans p (t :: ts)) : (next p).1 = t := by
  generalize hts : t :: ts = us at h
  cases h with
  | last | cons =>
    cases hts
    rfl

theorem Scans.closed (h : Scans p ts) :
    ∃ init t, ts = init ++ [t] ∧ t.kind.isEof = true ∧ ∀ u ∈ init, u.kind.isEof = false := by
  induction h with
  | last ht => exact ⟨[], _, rfl, ht, by simp⟩
  | cons ht _ ih =>
    obtain ⟨init, t, rfl, ht', hinit⟩ := ih
    exact ⟨_ :: init, t, rfl, ht', List.forall_mem_cons.2 ⟨ht, hinit⟩⟩

/-- The end of the last of some tokens, or where they would have begun. -/
def stopBefore (start : Nat) (before : List Token) : Nat := (before.getLast?.map fun t => t.span.stop).getD start

theorem stopBefore_cons (start : Nat) (t : Token) (before : List Token) :
    stopBefore start (t :: before) = stopBefore t.span.stop before := by
  rw [stopBefore, List.getLast?_cons, stopBefore]
  cases before.getLast? <;> rfl

theorem Scans.each {v : List Char} (h : Scans p ts) (hv : (Place.start source).Reads v p) {before after : List Token}
    (hts : ts = before ++ t :: after) :
    ∃ v' p' ps m w q, (Place.start source).Reads v' p' ∧ Taken p' ps m w q t ∧ p'.offset = stopBefore p.offset before := by
  induction h generalizing v before with
  | @last p ht =>
    obtain ⟨ps, m, w, htaken⟩ := next_taken p
    obtain ⟨rfl, h⟩ | ⟨_, _, h⟩ := List.cons_eq_append_iff.1 hts
    · cases h
      exact ⟨v, p, ps, m, w, _, hv, htaken, rfl⟩
    · simp at h
  | @cons p ts ht hts' ih =>
    obtain ⟨ps, m, w, htaken⟩ := next_taken p
    obtain ⟨rfl, h⟩ | ⟨before, rfl, rfl⟩ := List.cons_eq_append_iff.1 hts
    · cases h
      exact ⟨v, p, ps, m, w, _, hv, htaken, rfl⟩
    · obtain ⟨v', p', ps', m', w', q', hv', htaken', hoffset⟩ := ih (hv.trans (htaken.gap.trans htaken.text)) rfl
      refine ⟨v', p', ps', m', w', q', hv', htaken', ?_⟩
      rw [hoffset, stopBefore_cons, htaken.span]

theorem Scans.start_le (h : Scans p ts) : ∀ t ∈ ts, p.offset ≤ t.span.start := by
  induction h with
  | @last p ht =>
    obtain ⟨ps, m, w, htaken⟩ := next_taken p
    simp [htaken.span, htaken.gap.offset]
  | @cons p ts ht _ ih =>
    obtain ⟨ps, m, w, htaken⟩ := next_taken p
    refine List.forall_mem_cons.2 ⟨by simp [htaken.span, htaken.gap.offset], fun t hmem => ?_⟩
    have := ih t hmem
    have := htaken.gap.offset
    have := htaken.text.offset
    omega

theorem Scans.ordered (h : Scans p ts) : ts.Pairwise fun s t => s.span.stop ≤ t.span.start := by
  induction h with
  | last => exact List.pairwise_singleton _ _
  | @cons p ts ht h ih =>
    obtain ⟨ps, m, w, htaken⟩ := next_taken p
    refine List.pairwise_cons.2 ⟨fun t hmem => ?_, ih⟩
    rw [htaken.span]
    exact h.start_le t hmem

theorem scan_of_next {kind : TokenKind} (hkind : kind.isEof = false)
    (h : next ⟨w, 0⟩ = (⟨kind, ⟨0, byteSize w⟩, false⟩, ⟨[], byteSize w⟩)) :
    scan (String.ofList w) = [⟨kind, ⟨0, byteSize w⟩, false⟩, ⟨.eof, ⟨byteSize w, byteSize w⟩, false⟩] := by
  have hscans := scan_scans (String.ofList w)
  rw [Place.start, String.toList_ofList] at hscans
  refine hscans.unique ?_
  have hcons := Scans.cons (p := ⟨w, 0⟩) (by rw [h]; exact hkind) (.last (by rw [h]; rfl))
  rw [h] at hcons
  exact hcons

/-! ## Segmentation -/

/-- The text at a span is a row of blanks and complete comments. -/
def FillsGap (ps : List Piece) (g : Span) (source : String) : Prop :=
  String.ofList (gapText ps) = g.slice source ∧
    IsGap ps (Span.slice ⟨g.stop, source.utf8ByteSize⟩ source).toList

/-- The tokens of a text, in front of the end of input, and the gaps between them cover it. -/
structure Segments (source : String) (tokens : List Token) : Prop where
  inside : ∀ t ∈ tokens, t.span.start < t.span.stop ∧ t.span.stop ≤ source.utf8ByteSize
  onBoundaries : ∀ t ∈ tokens, t.span.OnBoundaries source
  ordered : tokens.Pairwise fun s t => s.span.stop ≤ t.span.start
  gaps : ∀ before t after, tokens = before ++ t :: after → ∃ ps, FillsGap ps ⟨stopBefore 0 before, t.span.start⟩ source
  lastGap : ∃ ps, FillsGap ps ⟨stopBefore 0 tokens, source.utf8ByteSize⟩ source
  alone : ∀ t ∈ tokens, (∀ fault, t.kind ≠ .invalid fault) →
    scan (t.span.slice source) =
      [⟨t.kind, ⟨0, t.span.length⟩, false⟩, ⟨.eof, ⟨t.span.length, t.span.length⟩, false⟩]

theorem scan_each {before after : List Token} (h : scan source = before ++ t :: after) :
    ∃ v p ps m w q, (Place.start source).Reads v p ∧ Taken p ps m w q t ∧ p.offset = stopBefore 0 before :=
  (scan_scans source).each (.refl _) h

namespace Taken

variable {source : String} {v w : List Char} {p m q : Place} {ps : List Piece} {t : Token}

theorem fillsGap (h : Taken p ps m w q t) (hv : (Place.start source).Reads v p) :
    FillsGap ps ⟨p.offset, t.span.start⟩ source := by
  rw [h.span]
  refine ⟨(hv.slice h.gap).symm, ?_⟩
  rw [(hv.trans h.gap).slice_rest, String.toList_ofList]
  exact h.isGap

theorem inside (h : Taken p ps m w q t) (hv : (Place.start source).Reads v p) (ht : t.kind.isEof = false) :
    t.span.start < t.span.stop ∧ t.span.stop ≤ source.utf8ByteSize := by
  have hsize := byteSize_pos (h.nonempty ht)
  have hoffset := h.text.offset
  rw [h.span]
  exact ⟨by simp only; omega, (hv.trans (h.gap.trans h.text)).offset_le⟩

theorem onBoundaries (h : Taken p ps m w q t) (hv : (Place.start source).Reads v p) : t.span.OnBoundaries source := by
  rw [h.span]
  exact ⟨(hv.trans h.gap).isValid, (hv.trans (h.gap.trans h.text)).isValid⟩

theorem eq_eof (h : Taken p ps m w q t) (hv : (Place.start source).Reads v p) (ht : t.kind.isEof = true) :
    t = ⟨.eof, ⟨source.utf8ByteSize, source.utf8ByteSize⟩, t.newlineBefore⟩ := by
  have hm := h.atEnd ht
  have hq : q.rest = [] := by
    have hrest := h.text.rest
    rw [hm] at hrest
    exact (List.append_eq_nil_iff.1 hrest.symm).2
  have hspan := h.span
  rw [(hv.trans h.gap).end_offset hm, (hv.trans (h.gap.trans h.text)).end_offset hq] at hspan
  obtain ⟨kind, span, newline⟩ := t
  cases hspan
  cases kind with
  | eof => rfl
  | _ => cases ht

theorem scan_alone (h : Taken p ps m w q t) (hv : (Place.start source).Reads v p) (ht : t.kind.isEof = false)
    (hk : ∀ fault, t.kind ≠ .invalid fault) :
    scan (t.span.slice source) =
      [⟨t.kind, ⟨0, t.span.length⟩, false⟩, ⟨.eof, ⟨t.span.length, t.span.length⟩, false⟩] := by
  have hlength : t.span.length = byteSize w := by
    simp [h.span, Span.length, h.text.offset]
  have hnext := h.alone hk 0
  rw [Nat.zero_add] at hnext
  rw [hlength, h.span, (hv.trans h.gap).slice h.text, scan_of_next ht hnext]

end Taken

/-- **Scanning cuts the text into tokens and gaps.** It takes one token after another from the start of
the text. The last token is the end of input, at the end of the text. The spans of the others are not empty, lie in the text between its characters, and
follow each other; between them, before the first and behind the last are blanks and complete
comments. The text of a token that is not invalid is that token when it stands alone. -/
theorem scan_segments (source : String) :
    Scans (.start source) (scan source) ∧
    ∃ tokens newline, scan source = tokens ++ [⟨.eof, ⟨source.utf8ByteSize, source.utf8ByteSize⟩, newline⟩] ∧
      (∀ t ∈ tokens, t.kind.isEof = false) ∧ Segments source tokens := by
  obtain ⟨tokens, last, hts, hlast, htokens⟩ := (scan_scans source).closed
  have hsplit : ∀ before t after, tokens = before ++ t :: after → scan source = before ++ t :: (after ++ [last]) := by
    rintro before t after rfl
    simp [hts]
  have hmem : ∀ t ∈ tokens, ∃ v p ps m w q, (Place.start source).Reads v p ∧ Taken p ps m w q t := by
    intro t ht
    obtain ⟨before, after, h⟩ := List.append_of_mem ht
    obtain ⟨v, p, ps, m, w, q, hv, htaken, -⟩ := scan_each (hsplit _ _ _ h)
    exact ⟨v, p, ps, m, w, q, hv, htaken⟩
  obtain ⟨v, p, ps, m, w, q, hv, htaken, hoffset⟩ := scan_each hts
  have heof := htaken.eq_eof hv hlast
  refine ⟨scan_scans source, tokens, last.newlineBefore, heof ▸ hts, htokens, ⟨fun t ht => ?_, fun t ht => ?_, ?_, ?_, ⟨ps, ?_⟩, ?_⟩⟩
  · obtain ⟨v, p, ps, m, w, q, hv, htaken⟩ := hmem t ht
    exact htaken.inside hv (htokens t ht)
  · obtain ⟨v, p, ps, m, w, q, hv, htaken⟩ := hmem t ht
    exact htaken.onBoundaries hv
  · exact (List.pairwise_append.1 (hts ▸ (scan_scans source).ordered)).1
  · intro before t after h
    obtain ⟨v, p, ps, m, w, q, hv, htaken, hoffset⟩ := scan_each (hsplit _ _ _ h)
    exact ⟨ps, hoffset ▸ htaken.fillsGap hv⟩
  · have hfills := htaken.fillsGap hv
    rwa [heof, hoffset] at hfills
  · intro t ht hk
    obtain ⟨v, p, ps, m, w, q, hv, htaken⟩ := hmem t ht
    exact htaken.scan_alone hv (htokens t ht) hk

/-! ## Tokens and their texts -/

theorem eq_nil_of_byteSize {cs : List Char} (h : byteSize cs = 0) : cs = [] := by
  by_contra hne
  exact absurd h (Nat.ne_of_gt (byteSize_pos hne))

theorem lexeme_of_scan {cs : List Char} {kind : TokenKind} {newline : Bool} {rest : List Token}
    (hkind : ∀ fault, kind ≠ .invalid fault)
    (h : scan (String.ofList cs) = ⟨kind, ⟨0, byteSize cs⟩, newline⟩ :: rest) :
    (lexeme ⟨cs, 0⟩).kind = kind ∧ (lexeme ⟨cs, 0⟩).after.rest = [] := by
  have hscans := scan_scans (String.ofList cs)
  rw [h, Place.start, String.toList_ofList] at hscans
  have hnext := hscans.head
  simp only [next] at hnext
  split at hnext
  · exact absurd (congrArg Token.kind hnext).symm (hkind _)
  · obtain ⟨v, hv⟩ := skipGap_reads .blank cs 0 false
    generalize (skipGap .blank cs 0 false).place = place at hnext hv
    simp only [Token.mk.injEq, Span.mk.injEq] at hnext
    obtain ⟨rfl, ⟨hstart, hstop⟩, -⟩ := hnext
    -- No gap stands in front of the token, since its span starts at zero.
    have hgap : v = [] := by
      have := hv.offset
      exact eq_nil_of_byteSize (by omega)
    have hplace : place = ⟨cs, 0⟩ := by
      obtain ⟨rest, offset⟩ := place
      have hrest := hv.rest
      simp only [hgap, List.nil_append] at hrest hstart
      rw [hrest, hstart]
    subst hplace
    refine ⟨rfl, ?_⟩
    by_cases hne : cs = []
    · subst hne
      rfl
    · obtain ⟨w, -, hw⟩ := lexeme_reads (p := ⟨cs, 0⟩) hne
      have hsize := congrArg byteSize hw.rest
      have hoffset := hw.offset
      rw [byteSize_append] at hsize
      exact eq_nil_of_byteSize (by simp only at hsize hoffset; omega)

def spelling? : TokenKind → Option String
  | .identifier name => some name
  | .word word => some word.text
  | _ => none

theorem lexeme_spells {name : String} (hall : (lexeme ⟨w, 0⟩).after.rest = [])
    (h : spelling? (lexeme ⟨w, 0⟩).kind = some name) :
    String.ofList w = name := by
  have hne : w ≠ [] := by
    rintro rfl
    cases h
  have hlexes := lexes_lexeme (p := ⟨w, 0⟩) hne
  generalize lexeme ⟨w, 0⟩ = l at hlexes hall h
  cases hlexes with
  | hex =>
    simp only [scanHex] at h
    split at h <;> cases h
  | decimal =>
    simp only [scanDecimal] at h
    split at h
    · cases h
    · split at h <;> cases h
  | mark | unexpected => cases h
  | @string c cs =>
    obtain ⟨s, hs⟩ | ⟨fault, hf⟩ := scanString_kind c cs (0 + 1) []
    · rw [hs] at h
      cases h
    · rw [hf] at h
      cases h
  | name =>
    simp only [scanName, Place.drop_rest] at hall h
    rw [takeWhile_whole (List.drop_eq_nil_iff.1 hall)] at h
    split at h
    · rename_i word hword
      cases h
      have htext := List.find?_some hword
      exact (beq_iff_eq.1 htext).symm
    · cases h
      rfl

theorem Taken.lexeme {v : List Char} {m q : Place} {ps : List Piece} (h : Taken p ps m w q t)
    (hv : (Place.start source).Reads v p) (ht : t.kind.isEof = false) (hk : ∀ fault, t.kind ≠ .invalid fault) :
    t.span.slice source = String.ofList w ∧ (Scanner.lexeme ⟨w, 0⟩).kind = t.kind ∧ (Scanner.lexeme ⟨w, 0⟩).after.rest
      = [] := by
  have hnext := h.alone hk 0
  rw [Nat.zero_add] at hnext
  refine ⟨?_, lexeme_of_scan hk (scan_of_next ht hnext)⟩
  rw [h.span, (hv.trans h.gap).slice h.text]

section

variable {source : String} {t : Token}

theorem exists_taken (ht : t ∈ scan source) : ∃ v p ps m w q, (Place.start source).Reads v p ∧ Taken p ps m w q t := by
  obtain ⟨before, after, h⟩ := List.append_of_mem ht
  obtain ⟨v, p, ps, m, w, q, hv, htaken, -⟩ := scan_each h
  exact ⟨v, p, ps, m, w, q, hv, htaken⟩

theorem span_le (ht : t ∈ scan source) : t.span.start ≤ t.span.stop := by
  obtain ⟨v, p, ps, m, w, q, -, htaken⟩ := exists_taken ht
  rw [htaken.span, htaken.text.offset]
  exact Nat.le_add_right _ _

theorem slice_spelling {name : String} (ht : t ∈ scan source) (hk : spelling? t.kind = some name) :
    t.span.slice source = name := by
  obtain ⟨v, p, ps, m, w, q, hv, htaken⟩ := exists_taken ht
  have heof : t.kind.isEof = false := by
    cases hkind : t.kind <;> simp_all [spelling?, TokenKind.isEof]
  have hvalid : ∀ fault, t.kind ≠ .invalid fault := by
    intro fault hf
    rw [hf] at hk
    cases hk
  obtain ⟨hslice, hkind, hall⟩ := htaken.lexeme hv heof hvalid
  rw [hslice]
  exact lexeme_spells hall (by rw [hkind]; exact hk)

end

/-! ## Line breaks -/

/-- The line terminators that comments do not look for. -/
def isSeparator (c : Char) : Bool := c == '\u2028' || c == '\u2029'

def Piece.hidesBreak : Piece → Bool
  | .blank _ => false
  | .line body => body.any isSeparator
  | .block body => body.any isSeparator

theorem any_endsLine_iff {body : List Char} (h : body.any isSeparator = false) :
    body.any endsLine = true ↔ ∃ c ∈ body, Text.isLineTerminator c = true := by
  rw [List.any_eq_true]
  refine exists_congr fun c => and_congr_right fun hc => ?_
  have hseparator : isSeparator c = false := by
    simpa using List.any_eq_false.1 h c hc
  have hsplit : Text.isLineTerminator c = (endsLine c || isSeparator c) := by
    simp only [Text.isLineTerminator, endsLine, isSeparator, Bool.or_assoc]
  rw [hsplit, hseparator, Bool.or_false]

theorem Piece.breaksLine_iff {p : Piece} (h : p.hidesBreak = false) :
    p.breaksLine = true ↔ ∃ c ∈ p.text, Text.isLineTerminator c = true := by
  have hslash : Text.isLineTerminator '/' = false := rfl
  have hstar : Text.isLineTerminator '*' = false := rfl
  cases p with
  | blank c => simp [breaksLine, text]
  | line body => simpa [breaksLine, text, hslash] using any_endsLine_iff h
  | block body => simpa [breaksLine, text, hslash, hstar, or_and_right, exists_or] using any_endsLine_iff h

/-- **A line break in front of a token.** Between the token before, or the start of the text, and a
token are blanks and complete comments. The token has the mark of a line break when a line terminator
stands among the blanks, or a line feed or carriage return in a comment. So where no comment holds one
of the other two line terminators, the mark says whether the text in between holds any. -/
theorem newlineBefore_iff {source : String} {before after : List Token} {t : Token}
    (h : scan source = before ++ t :: after) (ht : t.kind ≠ .invalid .unterminatedComment) :
    ∃ ps, FillsGap ps ⟨stopBefore 0 before, t.span.start⟩ source ∧
      (t.newlineBefore = true ↔ ∃ p ∈ ps, p.breaksLine = true) ∧
      ((∀ p ∈ ps, p.hidesBreak = false) → (t.newlineBefore = true ↔
        ∃ c ∈ (Span.slice ⟨stopBefore 0 before, t.span.start⟩ source).toList, Text.isLineTerminator c = true)) := by
  obtain ⟨v, p, ps, m, w, q, hv, htaken, hoffset⟩ := scan_each h
  have hfills : FillsGap ps ⟨stopBefore 0 before, t.span.start⟩ source := hoffset ▸ htaken.fillsGap hv
  have hbreaks : t.newlineBefore = true ↔ ∃ p ∈ ps, p.breaksLine = true := by
    rw [htaken.newline ht, List.any_eq_true]
  refine ⟨ps, hfills, hbreaks, fun hhides => ?_⟩
  rw [hbreaks, ← hfills.1, String.toList_ofList]
  simp only [gapText, List.mem_flatMap]
  constructor
  · rintro ⟨p, hp, hbreak⟩
    obtain ⟨c, hc, hterminator⟩ := (Piece.breaksLine_iff (hhides p hp)).1 hbreak
    exact ⟨c, ⟨p, hp, hc⟩, hterminator⟩
  · rintro ⟨c, ⟨p, hp, hc⟩, hterminator⟩
    exact ⟨p, hp, (Piece.breaksLine_iff (hhides p hp)).2 ⟨c, hc, hterminator⟩⟩

/-- A gap with all three kinds of pieces. The line feed in the first comment counts, the line separator in
the second does not. -/
theorem newlineBefore_comments :
    ∃ s t after, scan "a /* x\n */ // y\u2028\r b" = [s] ++ t :: after ∧ t.kind ≠ .invalid .unterminatedComment ∧
      ∃ ps, FillsGap ps ⟨stopBefore 0 [s], t.span.start⟩ "a /* x\n */ // y\u2028\r b" ∧
        ∃ p ∈ ps, p.breaksLine = true := by
  have hscan : ((scan "a /* x\n */ // y\u2028\r b").map fun t => (t.kind.name, t.newlineBefore)) =
      [("Identifier", false), ("Identifier", true), ("Eof", false)] := by decide +kernel
  obtain ⟨s, l, hl, -, h⟩ := List.map_eq_cons_iff.1 hscan
  obtain ⟨t, after, rfl, ht, -⟩ := List.map_eq_cons_iff.1 h
  have hkind : t.kind ≠ .invalid .unterminatedComment := by
    intro h
    rw [h] at ht
    simp [TokenKind.name] at ht
  obtain ⟨ps, hfills, hiff, -⟩ := newlineBefore_iff (show _ = [s] ++ t :: after from hl) hkind
  exact ⟨s, t, after, hl, hkind, ps, hfills, hiff.1 (Prod.mk.inj ht).2⟩

/-- A line separator inside a block comment is a line terminator in front of a token that does not have
the mark. -/
theorem newlineBefore_separator :
    ∃ t after, scan "/*\u2028*/a" = [] ++ t :: after ∧ t.kind ≠ .invalid .unterminatedComment ∧
      t.newlineBefore = false ∧
      ∃ c ∈ (Span.slice ⟨stopBefore 0 [], t.span.start⟩ "/*\u2028*/a").toList, Text.isLineTerminator c = true := by
  have hscan : ((scan "/*\u2028*/a").map fun t => (t.kind.name, t.span, t.newlineBefore)) =
      [("Identifier", ⟨7, 8⟩, false), ("Eof", ⟨8, 8⟩, false)] := by decide +kernel
  have hslice : '\u2028' ∈ (Span.slice ⟨0, 7⟩ "/*\u2028*/a").toList := by decide +kernel
  obtain ⟨t, after, hl, ht, -⟩ := List.map_eq_cons_iff.1 hscan
  simp only [Prod.mk.injEq] at ht
  obtain ⟨hname, hspan, hnewline⟩ := ht
  refine ⟨t, after, hl, ?_, hnewline, '\u2028', ?_, rfl⟩
  · intro h
    rw [h] at hname
    simp [TokenKind.name] at hname
  · rw [hspan]
    exact hslice

end ScriptEngine.Scanner
