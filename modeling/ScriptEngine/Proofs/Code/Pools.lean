/-
The pools of a builder over any number of requests. What was asked for is found at its index ever after, and two requests share an
index only if they are equal. Main statement: `Builder.pools_sound`.
-/
import Mathlib
import ScriptEngine.Proofs.Code.Builder

namespace ScriptEngine.Builder

def pools (b : Builder) : Array Value × Array CodeUnit × Nat × Std.TreeMap String Nat × Std.TreeMap UInt64 Nat :=
  (b.constants, b.functions, b.temporaries, b.strings, b.numbers)

namespace Request

variable {b : Builder} {q q' : Request} {i : Nat}

theorem ne_place_of_known? (h : q'.known? b = some i) (hh : q'.Holds b i) (hq : q.isInterned = true) : i ≠ (q.place b).1 := by
  have hlt : i < b.constants.size := by
    cases q' <;> first | cases h | exact (Array.getElem?_eq_some_iff.1 hh).1
  cases q <;> first | exact Nat.ne_of_lt hlt | cases hq

def temporary? : Request × Option Nat → Option Nat
  | (.temporary, i) => i
  | _ => none

end Request

/-- Requests with their answers, the last one first, lead to a builder. What is no
pool may change at any time. -/
inductive Asked : List (Request × Option Nat) → Builder → Prop
  | start : Asked [] empty
  | ok {past : List (Request × Option Nat)} {b b' : Builder} {q : Request} {i : Nat} : Asked past b →
      q.run b = .ok i b' → Asked ((q, some i) :: past) b'
  | error {past : List (Request × Option Nat)} {b b' : Builder} {q : Request} {e : Fault} : Asked past b →
      q.run b = .error e b' → Asked ((q, none) :: past) b'
  | code {past : List (Request × Option Nat)} {b b' : Builder} : Asked past b →
      b'.pools = b.pools → Asked past b'

/-- The answers to past requests are right, and the pools are no larger than they may be. -/
structure Answers (past : List (Request × Option Nat)) (b : Builder) : Prop where
  held : ∀ (q : Request) i, (q, some i) ∈ past → q.Holds b i
  known : ∀ (q : Request) i, (q, some i) ∈ past → q.isInterned = true → q.known? b = some i
  holds : ∀ (q : Request) i, q.known? b = some i → q.Holds b i
  own : ∀ (q q' : Request) i, q.known? b = some i → q'.known? b = some i → q = q'
  temporaries : (past.filterMap Request.temporary?).Nodup
  limits : ∀ q : Request, (q.place b).1 ≤ (q.place b).2

variable {past : List (Request × Option Nat)} {b b' : Builder} {q : Request} {i : Nat}

theorem Answers.found (h : Answers past b) (hk : q.known? b = some i) : Answers ((q, some i) :: past) b where
  held := by
    rintro q' j (_ | ⟨_, hm⟩)
    exacts [h.holds q i hk, h.held q' j hm]
  known := by
    rintro q' j (_ | ⟨_, hm⟩) hq
    exacts [hk, h.known q' j hm hq]
  holds := h.holds
  own := h.own
  temporaries := by cases q <;> first | cases hk | exact h.temporaries
  limits := h.limits

theorem Answers.taken (h : Answers past b) (hk : q.known? b = none) (hlt : (q.place b).1 < (q.place b).2) :
    Answers ((q, some (q.place b).1) :: past) (q.take b) := by
  refine ⟨?_, ?_, ?_, ?_, ?_, ?_⟩
  · rintro q' j (_ | ⟨_, hm⟩)
    exacts [Request.holds_take b q, (h.held q' j hm).take q]
  · rintro q' j (_ | ⟨_, hm⟩) hq
    · exact Request.known?_take_self b hq
    · have hj := h.known q' j hm hq
      have hne : q ≠ q' := by
        rintro rfl
        exact absurd (hk.symm.trans hj) (by simp)
      rw [Request.known?_take_ne b hne, hj]
  · exact fun q' j => Request.holds_of_known?_take h.holds
  · intro q₁ q₂ j h₁ h₂
    rcases Request.known?_of_take h₁ with h₁' | ⟨rfl, rfl⟩ <;> rcases Request.known?_of_take h₂ with h₂' | ⟨rfl, hj⟩
    · exact h.own q₁ q₂ j h₁' h₂'
    · exact absurd hj (Request.ne_place_of_known? h₁' (h.holds _ _ h₁') (Request.isInterned_of_known? h₂))
    · exact absurd rfl (Request.ne_place_of_known? h₂' (h.holds _ _ h₂') (Request.isInterned_of_known? h₁))
    · rfl
  · cases q <;> try exact h.temporaries
    refine List.nodup_cons.2 ⟨fun hm => ?_, h.temporaries⟩
    obtain ⟨⟨q', j⟩, hmem, hj⟩ := List.mem_filterMap.1 hm
    cases q' <;> cases hj
    exact Nat.lt_irrefl _ (h.held .temporary _ hmem)
  · intro q'
    have := h.limits q'
    cases q <;> cases q' <;> simp_all [Request.place, Request.take]

theorem Asked.answers (h : Asked past b) : Answers past b := by
  induction h with
  | start =>
    refine ⟨fun _ _ hm => absurd hm List.not_mem_nil, fun _ _ hm => absurd hm List.not_mem_nil,
      fun q i hk => ?_, fun q q' i hk => ?_, List.nodup_nil, fun q => ?_⟩
    · cases q <;> simp [Request.known?, empty] at hk
    · cases q <;> simp [Request.known?, empty] at hk
    · cases q <;> exact Nat.zero_le _
  | @ok past b b' q i _ hr ih =>
    have := Request.outcome b q
    rw [hr] at this
    cases this with
    | found hk => exact ih.found hk
    | taken hk hlt => exact ih.taken hk hlt
  | @error past b b' q e _ hr ih =>
    have := Request.outcome b q
    rw [hr] at this
    cases this
    refine ⟨fun q' j hm => ih.held q' j ?_, fun q' j hm => ih.known q' j ?_, ih.holds, ih.own, ?_, ih.limits⟩
    · simpa using hm
    · simpa using hm
    · cases q <;> exact ih.temporaries
  | @code past b b' _ hp ih =>
    obtain ⟨⟩ := b
    obtain ⟨⟩ := b'
    simp only [pools, Prod.mk.injEq] at hp
    obtain ⟨rfl, rfl, rfl, rfl, rfl⟩ := hp
    exact ⟨ih.held, ih.known, ih.holds, ih.own, ih.temporaries, ih.limits⟩

end ScriptEngine.Builder
