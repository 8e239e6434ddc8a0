/-
Places of a text, in bytes. A place that a scanner reaches from the start of a
text stands between two of its characters, and the text between two such places
is what was read on the way.
-/
import ScriptEngine.Source.Scanner
import Mathlib.Data.String.Basic

namespace ScriptEngine

def Span.slice (s : Span) (source : String) : String := String.Pos.Raw.extract source ⟨s.start⟩ ⟨s.stop⟩

/-- Neither end of the span cuts a character in two. -/
def Span.OnBoundaries (s : Span) (source : String) : Prop :=
  String.Pos.Raw.IsValid source ⟨s.start⟩ ∧ String.Pos.Raw.IsValid source ⟨s.stop⟩

namespace Scanner

theorem byteSize_eq_utf8Len (cs : List Char) : byteSize cs = String.utf8Len cs := by
  have hfold : ∀ n, cs.foldl (fun n c => n + c.utf8Size) n = n + String.utf8Len cs := by
    induction cs with
    | nil => intro n; rfl
    | cons c cs ih =>
      intro n
      rw [List.foldl_cons, ih, String.utf8Len_cons]
      omega
  rw [byteSize, hfold, Nat.zero_add]

@[simp] theorem byteSize_nil : byteSize [] = 0 := rfl

@[simp] theorem byteSize_cons (c : Char) (cs : List Char) : byteSize (c :: cs) = c.utf8Size + byteSize cs := by
  rw [byteSize_eq_utf8Len, byteSize_eq_utf8Len, String.utf8Len_cons, Nat.add_comm]

@[simp] theorem byteSize_append (cs ds : List Char) : byteSize (cs ++ ds) = byteSize cs + byteSize ds := by
  simp only [byteSize_eq_utf8Len, String.utf8Len_append]

theorem byteSize_toList (s : String) : byteSize s.toList = s.utf8ByteSize := by
  rw [byteSize_eq_utf8Len, String.utf8Len_toList]

theorem byteSize_pos {cs : List Char} (h : cs ≠ []) : 0 < byteSize cs := by
  obtain ⟨c, cs, rfl⟩ := List.exists_cons_of_ne_nil h
  have := c.utf8Size_pos
  rw [byteSize_cons]
  omega

/-! ## What stands between two places -/

/-- The text `w` leads from the first place to the second. -/
structure Place.Reads (p : Place) (w : List Char) (q : Place) : Prop where
  rest : p.rest = w ++ q.rest
  offset : q.offset = p.offset + byteSize w

namespace Place

variable {p q : Place} {v w : List Char} {source : String}

def start (source : String) : Place := ⟨source.toList, 0⟩

theorem Reads.refl (p : Place) : p.Reads [] p := ⟨rfl, rfl⟩

theorem Reads.trans {r : Place} (h : p.Reads v q) (h' : q.Reads w r) : p.Reads (v ++ w) r :=
  ⟨by rw [h.rest, h'.rest, List.append_assoc], by rw [h'.offset, h.offset, byteSize_append, Nat.add_assoc]⟩

theorem Reads.cons {c : Char} {cs : List Char} {offset : Nat} (h : Reads ⟨cs, offset + c.utf8Size⟩ w q) :
    Reads ⟨c :: cs, offset⟩ (c :: w) q :=
  Reads.trans (p := ⟨c :: cs, offset⟩) (v := [c]) ⟨rfl, by simp⟩ h

theorem Reads.unique (h : p.Reads v q) (h' : p.Reads w q) : v = w :=
  List.append_cancel_right (h.rest.symm.trans h'.rest)

theorem Reads.between {r : Place} {x : List Char} (h : p.Reads v q) (h' : p.Reads w r) (hx : q.rest = x ++ r.rest) :
    q.Reads x r := by
  have hw : w = v ++ x := by
    refine List.append_cancel_right (h'.rest.symm.trans ?_)
    rw [h.rest, hx, List.append_assoc]
  refine ⟨hx, ?_⟩
  rw [h'.offset, hw, byteSize_append, h.offset, Nat.add_assoc]

theorem drop_reads (p : Place) (n : Nat) : p.Reads (p.rest.take n) (p.drop n) :=
  ⟨(List.take_append_drop n p.rest).symm, rfl⟩

theorem Reads.end_offset (h : (start source).Reads w q) (hq : q.rest = []) : q.offset = source.utf8ByteSize := by
  have hw : source.toList = w := by simpa [start, hq] using h.rest
  rw [h.offset, ← hw, byteSize_toList]
  exact Nat.zero_add _

theorem Reads.offset_le (h : (start source).Reads w q) : q.offset ≤ source.utf8ByteSize := by
  have hend : q.Reads q.rest ⟨[], q.offset + byteSize q.rest⟩ := ⟨by simp, rfl⟩
  rw [← (h.trans hend).end_offset rfl]
  exact Nat.le_add_right _ _

theorem Reads.isValid (h : (start source).Reads w q) : String.Pos.Raw.IsValid source ⟨q.offset⟩ := by
  refine String.Pos.Raw.isValid_iff_exists_append.2 ⟨String.ofList w, String.ofList q.rest, ?_, ?_⟩
  · rw [← String.ofList_append, ← h.rest]
    exact (String.ofList_toList (s := source)).symm
  · rw [String.rawEndPos_ofList, h.offset, byteSize_eq_utf8Len]
    simp [start]

theorem Reads.slice (h : (start source).Reads v p) (h' : p.Reads w q) :
    Span.slice ⟨p.offset, q.offset⟩ source = String.ofList w := by
  have hsource : source = String.ofList (v ++ w ++ q.rest) := by
    rw [← (h.trans h').rest]
    exact (String.ofList_toList (s := source)).symm
  have hp : p.offset = String.utf8Len v := by
    rw [h.offset, byteSize_eq_utf8Len]
    simp [start]
  rw [Span.slice, h'.offset, hp, byteSize_eq_utf8Len, hsource]
  exact String.extract_of_valid v w q.rest

theorem Reads.slice_rest (h : (start source).Reads v p) :
    Span.slice ⟨p.offset, source.utf8ByteSize⟩ source = String.ofList p.rest := by
  have hend : p.Reads p.rest ⟨[], p.offset + byteSize p.rest⟩ := ⟨by simp, rfl⟩
  rw [← (h.trans hend).end_offset rfl, h.slice hend]

end Place

end Scanner

end ScriptEngine
