/-
The code of statements has shapes and keeps to the rules: it leaves the operands
and the open constructs as they were, whichever way control takes through it.
Pieces of code are put together with the labels that they place (`Goes`), and the
positions at which statements begin and end are kept track of. Main statements:
`goes_stmt` and `entry_shaped`.
-/
import ScriptEngine.Proofs.Code.Lifting

namespace ScriptEngine

open Layout

/-! ## Code with labels -/

/-- Everything that is open was opened before a position. -/
def Shape.Before (S : Shape) (p : Nat) : Prop := ∀ o ∈ S.opened, o.site < p

/-- At two positions nothing is on the stack and the same constructs are open, all of them opened
before the first. -/
def Spans (E : Nat → Shape → Prop) (p q : Nat) : Prop := ∃ C, E p ⟨0, C⟩ ∧ E q ⟨0, C⟩ ∧ ∀ o ∈ C, o.site < p

def Aims (J : Nat → Shape → Prop) (L : List (Nat × Shape)) : Nat → Shape → Prop := fun p U => (p, U) ∈ L ∨ J p U

theorem Aims.here {J : Nat → Shape → Prop} {p : Nat} {S : Shape} : Aims J [(p, S)] p S := .inl (List.mem_singleton.2 rfl)

theorem Aims.there {J : Nat → Shape → Prop} {L : List (Nat × Shape)} {p : Nat} {U : Shape} (h : J p U) : Aims J L p U :=
  .inr h

/-- The code leads from one shape to another, with jumps to `J` and the labels `M` placed in it. It is
also laid out as `N` says, whatever is noted of the spans in it. -/
def Goes {u : CodeUnit} (Q : Rules u) (J : Nat → Shape → Prop) (M : List (Nat × Shape)) (S T : Shape) (x : Code)
    (N : (Nat → Nat → Prop) → Code) : Prop :=
  ∀ a b, S.Before a.pc → x a b → ∃ E, Piece Q J E a.pc b.pc S T ∧ E a.pc S ∧ E b.pc T ∧ (∀ l ∈ M, E l.1 l.2) ∧
    T.Before b.pc ∧ ∀ K : Nat → Nat → Prop, (∀ p q, Spans E p q → K p q) → N K a b

namespace Goes

variable {u : CodeUnit} {Q : Rules u} {J J' : Nat → Shape → Prop} {M M' : List (Nat × Shape)} {S R T : Shape} {x y : Code}
  {N N' : (Nat → Nat → Prop) → Code}

theorem of_piece (hT : T.opened ⊆ S.opened)
    (h : ∀ a b, S.Before a.pc → x a b → Piece Q J (Borders a.pc b.pc S T) a.pc b.pc S T) :
    Goes Q J [] S T x fun _ => x := by
  intro a b hS hx
  have hp := h a b hS hx
  exact ⟨_, hp, .inl ⟨rfl, rfl⟩, .inr ⟨rfl, rfl⟩, nofun, fun o ho => Nat.lt_of_lt_of_le (hS o (hT ho)) hp.le,
    fun _ _ => hx⟩

theorem of_lifts {k j : Nat} {C : List Open} (h : Lifts Q C k j x) (n : Nat) :
    Goes Q J [] ⟨n + k, C⟩ ⟨n + j, C⟩ x fun _ => x :=
  of_piece (List.Subset.refl _) fun a b _ hx => h J n a b hx

theorem seq (hx : Goes Q J M S R x N) (hy : Goes Q J M' R T y N') :
    Goes Q J (M ++ M') S T (x ++ y) fun K => N K ++ N' K := by
  rintro a b hS ⟨m, hxm, htemps, hym⟩
  obtain ⟨E, hp, hEa, -, hM, hR, hN⟩ := hx a m hS hxm
  obtain ⟨E', hp', -, hEb, hM', hT, hN'⟩ := hy m b hR hym
  refine ⟨_, hp.seq hp', .inl hEa, .inr hEb, fun l hl => ?_, hT, fun K hK => ⟨m, hN K ?_, htemps, hN' K ?_⟩⟩
  · exact (List.mem_append.1 hl).imp (hM l) (hM' l)
  · exact fun p q ⟨C, h₁, h₂, h₃⟩ => hK p q ⟨C, .inl h₁, .inl h₂, h₃⟩
  · exact fun p q ⟨C, h₁, h₂, h₃⟩ => hK p q ⟨C, .inr h₁, .inr h₂, h₃⟩

theorem mark (p : Nat) : Goes Q J [(p, S)] S S (.mark p) fun _ => .mark p := by
  rintro a _ hS ⟨rfl, rfl⟩
  refine ⟨_, .nil J, .inl ⟨rfl, rfl⟩, .inl ⟨rfl, rfl⟩, fun l hl => ?_, hS, fun _ _ => ⟨rfl, rfl⟩⟩
  rw [List.mem_singleton.1 hl]
  exact .inl ⟨rfl, rfl⟩

theorem close {L : List (Nat × Shape)} (h : Goes Q (Aims J L) M' S T x N) (hL : L ⊆ M') (hM : M ⊆ M') :
    Goes Q J M S T x N := by
  intro a b hS hx
  obtain ⟨E, hp, hEa, hEb, hE, hT, hN⟩ := h a b hS hx
  exact ⟨E, hp.close fun q U hq => hE (q, U) (hL hq), hEa, hEb, fun l hl => hE l (hM hl), hT, hN⟩

theorem label {k : Nat → Code} {P : Nat → List (Nat × Shape)} {N : Nat → (Nat → Nat → Prop) → Code} (L : Shape)
    (hP : ∀ p, (p, L) :: M ⊆ P p) (h : ∀ p, Goes Q (Aims J [(p, L)]) (P p) S T (k p) (N p)) :
    Goes Q J M S T (.label k) fun K => .label fun p => N p K := by
  rintro a b hS ⟨p, hk⟩
  obtain ⟨hL, hM⟩ := List.cons_subset.1 (hP p)
  obtain ⟨E, hp, hEa, hEb, hE, hT, hN⟩ := (h p).close (List.cons_subset.2 ⟨hL, List.nil_subset _⟩) hM a b hS hk
  exact ⟨E, hp, hEa, hEb, hE, hT, fun K hK => ⟨p, hN K hK⟩⟩

theorem unused {k : Nat → Code} {N : Nat → (Nat → Nat → Prop) → Code} (h : ∀ p, Goes Q J M S T (k p) (N p)) :
    Goes Q J M S T (.label k) fun K => .label fun p => N p K := by
  rintro a b hS ⟨p, hk⟩
  obtain ⟨E, hp, hEa, hEb, hE, hT, hN⟩ := h p a b hS hk
  exact ⟨E, hp, hEa, hEb, hE, hT, fun K hK => ⟨p, hN K hK⟩⟩

theorem temporary {k : Nat → Code} {N : Nat → (Nat → Nat → Prop) → Code} (h : ∀ t, Goes Q J M S T (k t) (N t)) :
    Goes Q J M S T (.temporary k) fun K => .temporary fun t => N t K :=
  fun a b hS hk => h a.temps ⟨a.pc, a.temps + 1⟩ b hS hk

theorem choice {ι : Type} {P : ι → Prop} {k : ι → Code} (h : ∀ i, P i → Goes Q J M S T (k i) N) :
    Goes Q J M S T (fun a b => ∃ i, P i ∧ k i a b) N :=
  fun a b hS ⟨i, hi, hk⟩ => h i hi a b hS hk

theorem jumps (h : Goes Q J M S T x N) (hJ : ∀ p U, J p U → J' p U) : Goes Q J' M S T x N := by
  intro a b hS hx
  obtain ⟨E, hp, h⟩ := h a b hS hx
  exact ⟨E, hp.jumps hJ, h⟩

theorem notes (h : Goes Q J M S T x N) (hN : ∀ K a b, N K a b → N' K a b) : Goes Q J M S T x N' := by
  intro a b hS hx
  obtain ⟨E, hp, hEa, hEb, hE, hT, hnoted⟩ := h a b hS hx
  exact ⟨E, hp, hEa, hEb, hE, hT, fun K hK => hN K a b (hnoted K hK)⟩

theorem noted {C : List Open} (h : Goes Q J M ⟨0, C⟩ ⟨0, C⟩ x N) :
    Goes Q J M ⟨0, C⟩ ⟨0, C⟩ x fun K a b => N K a b ∧ K a.pc b.pc := by
  intro a b hS hx
  obtain ⟨E, hp, hEa, hEb, hE, hT, hN⟩ := h a b hS hx
  exact ⟨E, hp, hEa, hEb, hE, hT, fun K hK => ⟨hN K hK, hK _ _ ⟨C, hEa, hEb, hS⟩⟩⟩

end Goes

/-! ## Instructions -/

section

variable {c : Setting} {Q : Rules c.unit} {J : Nat → Shape → Prop} {M : List (Nat × Shape)} {n k : Nat} {C : List Open}
  {T : Shape} {y : Code} {N : (Nat → Nat → Prop) → Code}

theorem goes_jump {t : Nat} (hJ : J t ⟨n, C⟩) (k : Nat) :
    Goes Q J [] ⟨n, C⟩ ⟨k, C⟩ (jump c .jump t) fun _ => jump c .jump t :=
  .of_piece (List.Subset.refl _) fun _ _ _ h => Piece.jump h hJ _

theorem goes_test {op : Opcode} (hop : op = .jumpIfFalse ∨ op = .jumpIfTrue) {t : Nat} (hJ : J t ⟨n, C⟩) :
    Goes Q J [] ⟨n + 1, C⟩ ⟨n, C⟩ (jump c op t) fun _ => jump c op t :=
  .of_piece (List.Subset.refl _) fun _ _ _ h => Piece.tests hop h hJ

theorem goes_leave {op : Opcode} (hop : op = .ret ∨ op = .throwValue) (k : Nat) :
    Goes Q J [] ⟨n + 1, C⟩ ⟨k, C⟩ (emit c op) fun _ => emit c op := by
  refine .of_piece (List.Subset.refl _) ?_
  rintro a _ - ⟨hi, rfl⟩
  obtain rfl | rfl := hop <;> exact .one hi (Q.plain rfl) ⟨Nat.le_add_left 1 n, trivial⟩

theorem goes_open {i : Instruction} {o : Nat → Open} (ho : ∀ p, (o p).site = p) (hq : Q.fits C i)
    (hi : ∀ p, Shape.Flows Q.flat (fun q U => q = p + 1 ∧ U = ⟨k, o p :: C⟩ ∨ J q U) p ⟨n, C⟩ i)
    (hy : ∀ e, c.unit.instructions[e]? = some i → Goes Q J M ⟨k, o e :: C⟩ T y N) :
    Goes Q J M ⟨n, C⟩ T (Code.op c.unit i ++ y) fun K => Code.op c.unit i ++ N K := by
  rintro a b hS ⟨_, ⟨hget, rfl⟩, htemps, hb⟩
  have hbefore : Shape.Before ⟨k, o a.pc :: C⟩ (a.pc + 1) := by
    intro p hp
    rcases List.mem_cons.1 hp with rfl | hp
    · rw [ho]
      exact Nat.lt_succ_self _
    · exact Nat.lt_succ_of_lt (hS p hp)
  obtain ⟨E, hp, -, hEb, hE, hT, hN⟩ := hy a.pc hget _ b hbefore hb
  refine ⟨_, (Piece.one hget hq (hi a.pc)).seq hp, .inl (.inl ⟨rfl, rfl⟩), .inr hEb, fun l hl => .inr (hE l hl), hT,
    fun K hK => ⟨_, ⟨hget, rfl⟩, htemps, hN K ?_⟩⟩
  exact fun p q ⟨C, h₁, h₂, h₃⟩ => hK p q ⟨C, .inr h₁, .inr h₂, h₃⟩

theorem goes_enterTry {t : Nat} (hX : Q.flat → n = 0) (hJ : J t ⟨1, C⟩)
    (hy : ∀ e, Goes Q J M ⟨n, .attempt e :: C⟩ T y N) :
    Goes Q J M ⟨n, C⟩ T (jump c .enterTry t ++ y) fun K => jump c .enterTry t ++ N K :=
  goes_open (fun _ => rfl) (Q.plain rfl) (fun _ => ⟨Nat.zero_le n, hX, .inr hJ, .inl ⟨rfl, rfl⟩⟩) fun e _ => hy e

theorem goes_leaveTry {e : Nat} :
    Goes Q J [] ⟨n, .attempt e :: C⟩ ⟨n, C⟩ (emit c .leaveTry) fun _ => emit c .leaveTry := by
  refine .of_piece (List.subset_cons_self _ _) ?_
  rintro a _ - ⟨hi, rfl⟩
  exact .one hi (Q.plain rfl) ⟨Nat.zero_le n, e, C, rfl, .inl ⟨rfl, rfl⟩⟩

theorem goes_pushWithScope (hd : Q.dynamic)
    (hy : ∀ e, c.unit.instructions[e]? = some ⟨.pushWithScope, none⟩ → Goes Q J M ⟨n, .scope e :: C⟩ T y N) :
    Goes Q J M ⟨n + 1, C⟩ T (emit c .pushWithScope ++ y) fun K => emit c .pushWithScope ++ N K :=
  goes_open (fun _ => rfl) (Q.withScope hd) (fun _ => ⟨Nat.le_add_left 1 n, .inl ⟨rfl, rfl⟩⟩) hy

theorem goes_pushCatchScope (name : String)
    (hy : ∀ e k, c.unit.instructions[e]? = some ⟨.pushCatchScope, some (.property k)⟩ →
      Goes Q J M ⟨n, .scope e :: C⟩ T y N) :
    Goes Q J M ⟨n + 1, C⟩ T (named c .pushCatchScope name ++ y)
      fun K => named c .pushCatchScope name ++ N K := by
  rintro a b hS ⟨m, ⟨i, hname, hi⟩, htemps, hb⟩
  obtain ⟨E, hp, hEa, hEb, hE, hT, hN⟩ := goes_open (i := ⟨.pushCatchScope, some (.property i)⟩) (fun _ => rfl)
    (Q.plain rfl) (fun _ => ⟨Nat.le_add_left 1 n, .inl ⟨rfl, rfl⟩⟩) (fun e => hy e i) a b hS ⟨m, hi, htemps, hb⟩
  refine ⟨E, hp, hEa, hEb, hE, hT, fun K hK => ?_⟩
  obtain ⟨m', hm', h⟩ := hN K hK
  exact ⟨m', ⟨i, hname, hm'⟩, h⟩

theorem goes_popScope {e : Nat} :
    Goes Q J [] ⟨n, .scope e :: C⟩ ⟨n, C⟩ (emit c .popScope) fun _ => emit c .popScope := by
  refine .of_piece (List.subset_cons_self _ _) ?_
  rintro a _ - ⟨hi, rfl⟩
  exact .one hi (Q.plain rfl) ⟨Nat.zero_le n, e, C, rfl, .inl ⟨rfl, rfl⟩⟩

end

/-! ## Ways out -/

/-- Code that control goes out of by a jump, so that any shape may stand behind it. -/
def Exits {u : CodeUnit} (Q : Rules u) (J : Nat → Shape → Prop) (S T : Shape) (x : Code) (N : (Nat → Nat → Prop) → Code) :
    Prop :=
  ∀ a b, S.Before a.pc → T.Before a.pc → x a b → ∃ E, Piece Q J E a.pc b.pc S T ∧ E a.pc S ∧ E b.pc T ∧
    ∀ K : Nat → Nat → Prop, (∀ p q, Spans E p q → K p q) → N K a b

namespace Exits

variable {u : CodeUnit} {Q : Rules u} {J : Nat → Shape → Prop} {S T : Shape} {x : Code} {N : (Nat → Nat → Prop) → Code}

theorem of_piece (h : ∀ a b, x a b → Piece Q J (Borders a.pc b.pc S T) a.pc b.pc S T) :
    Exits Q J S T x fun _ => x :=
  fun a b _ _ hx => ⟨_, h a b hx, .inl ⟨rfl, rfl⟩, .inr ⟨rfl, rfl⟩, fun _ _ => hx⟩

theorem goes (h : Exits Q J S T x N) (hT : T.opened ⊆ S.opened) : Goes Q J [] S T x N := by
  intro a b hS hx
  obtain ⟨E, hp, hEa, hEb, hN⟩ := h a b hS (fun o ho => hS o (hT ho)) hx
  exact ⟨E, hp, hEa, hEb, nofun, fun o ho => Nat.lt_of_lt_of_le (hS o (hT ho)) hp.le, hN⟩

theorem behind {M : List (Nat × Shape)} {R : Shape} {y : Code} {N' : (Nat → Nat → Prop) → Code}
    (hy : Exits Q J R T y N') (hx : Goes Q J M S R x N) : Exits Q J S T (x ++ y) fun K => N K ++ N' K := by
  rintro a b hS hT ⟨m, hxm, htemps, hym⟩
  obtain ⟨E, hp, hEa, -, -, hR, hN⟩ := hx a m hS hxm
  obtain ⟨E', hp', -, hEb, hN'⟩ := hy m b hR (fun o ho => Nat.lt_of_lt_of_le (hT o ho) hp.le) hym
  refine ⟨_, hp.seq hp', .inl hEa, .inr hEb, fun K hK => ⟨m, hN K ?_, htemps, hN' K ?_⟩⟩
  · exact fun p q ⟨C, h₁, h₂, h₃⟩ => hK p q ⟨C, .inl h₁, .inl h₂, h₃⟩
  · exact fun p q ⟨C, h₁, h₂, h₃⟩ => hK p q ⟨C, .inr h₁, .inr h₂, h₃⟩

end Exits

/-- The finalizer of a region leaves the stack and what is open around the region as they were. -/
inductive Finalizes {u : CodeUnit} (Q : Rules u) (J : Nat → Shape → Prop) (C : List Open) :
    Option Code → ((Nat → Nat → Prop) → Option Code) → Prop
  | none : Finalizes Q J C none fun _ => none
  | some {x N} : Goes Q J [] ⟨0, C⟩ ⟨0, C⟩ x N → Finalizes Q J C (some x) fun K => some (N K)

/-- The constructs around code are the open ones; breaking and continuing leads to where they are
open still. The constructs with notes go along. -/
inductive Inside {u : CodeUnit} (Q : Rules u) (J : Nat → Shape → Prop) :
    List Region → ((Nat → Nat → Prop) → List Region) → List Open → Prop
  | nil : Inside Q J [] (fun _ => []) []
  | breakable {labels kind breakTo continueTo rs Rs C} : J breakTo ⟨0, C⟩ →
      (∀ t, continueTo = some t → J t ⟨0, C⟩) → Inside Q J rs Rs C →
      Inside Q J (.breakable labels kind breakTo continueTo :: rs)
        (fun K => .breakable labels kind breakTo continueTo :: Rs K) C
  | attempt {finalizer N e rs Rs C} : Finalizes Q J C finalizer N → Inside Q J rs Rs C →
      Inside Q J (.attempt finalizer :: rs) (fun K => .attempt (N K) :: Rs K) (.attempt e :: C)
  | scope {e rs Rs C} : Inside Q J rs Rs C → Inside Q J (.scope :: rs) (fun K => .scope :: Rs K) (.scope e :: C)

section

variable {u : CodeUnit} {Q : Rules u} {J J' : Nat → Shape → Prop} {C : List Open} {rs : List Region}
  {Rs : (Nat → Nat → Prop) → List Region} {finalizer : Option Code} {N : (Nat → Nat → Prop) → Option Code}

theorem Finalizes.jumps (h : Finalizes Q J C finalizer N) (hJ : ∀ p U, J p U → J' p U) :
    Finalizes Q J' C finalizer N := by
  cases h with
  | none => exact .none
  | some h => exact .some (h.jumps hJ)

theorem Finalizes.goes (h : Finalizes Q J C finalizer N) :
    Goes Q J [] ⟨0, C⟩ ⟨0, C⟩ (finalizer.getD .nil) fun K => (N K).getD .nil := by
  cases h with
  | none => exact Goes.of_lifts (k := 0) Lifts.nil 0
  | some h => exact h

theorem Inside.jumps (h : Inside Q J rs Rs C) (hJ : ∀ p U, J p U → J' p U) : Inside Q J' rs Rs C := by
  induction h with
  | nil => exact .nil
  | breakable hb hc _ ih => exact .breakable (hJ _ _ hb) (fun t ht => hJ _ _ (hc t ht)) ih
  | attempt hf _ ih => exact .attempt (hf.jumps hJ) ih
  | scope _ ih => exact .scope ih

theorem Inside.aims (h : Inside Q J rs Rs C) {L : List (Nat × Shape)} : Inside Q (Aims J L) rs Rs C :=
  h.jumps fun _ _ => Aims.there

theorem Inside.any_isFinalized (h : Inside Q J rs Rs C) (K : Nat → Nat → Prop) :
    (Rs K).any Region.isFinalized = rs.any Region.isFinalized := by
  induction h with
  | nil => rfl
  | breakable _ _ _ ih => exact ih
  | attempt hf _ ih =>
    rw [List.any_cons, List.any_cons, ih]
    cases hf <;> rfl
  | scope _ ih => exact ih

end

section

variable {c : Setting} {Q : Rules c.unit} {J : Nat → Shape → Prop} {C : List Open} {rs : List Region}
  {Rs : (Nat → Nat → Prop) → List Region}

theorem exits_jumpAt (kind : Lowering.JumpKind) (label : Option String) (h : Inside Q J rs Rs C) (T : Shape)
    (Rs' : (Nat → Nat → Prop) → List Region) :
    Exits Q J ⟨0, C⟩ T (jumpAt c kind label rs) fun K => jumpAt (c.among (Rs' K)) kind label (Rs K) := by
  induction h with
  | nil => exact fun _ _ _ _ hj => hj.elim
  | @breakable labels k breakTo continueTo rs Rs C hb hc _ ih =>
    simp only [jumpAt]
    split
    · match kind, continueTo, hc with
      | .breaks, _, _ => exact .of_piece fun _ _ hj => .jump hj hb T
      | .continues, some t, hc => exact .of_piece fun _ _ hj => .jump hj (hc t rfl) T
      | .continues, none, _ => exact fun _ _ _ _ hj => hj.elim
    · exact ih
  | attempt hf _ ih => exact (ih.behind hf.goes).behind goes_leaveTry
  | scope _ ih => exact ih.behind goes_popScope

theorem exits_returnAt (value : Nat) (h : Inside Q J rs Rs C) (T : Shape)
    (Rs' : (Nat → Nat → Prop) → List Region) :
    Exits Q J ⟨0, C⟩ T (returnAt c value rs) fun K => returnAt (c.among (Rs' K)) value (Rs K) := by
  induction h with
  | nil =>
    have hload : Lifts Q [] 0 1 (emitWith c .loadLocal (.temporary value)) := Lifts.op rfl rfl rfl rfl
    have hret : Exits Q J ⟨1, []⟩ T (emit c .ret) fun _ => emit c .ret := by
      refine .of_piece ?_
      rintro a _ ⟨hi, rfl⟩
      exact .one hi (Q.plain rfl) ⟨Nat.le_refl 1, trivial⟩
    exact hret.behind (Goes.of_lifts hload 0)
  | breakable _ _ _ ih => exact ih
  | attempt hf _ ih => exact (ih.behind hf.goes).behind goes_leaveTry
  | scope _ ih => exact ih.behind goes_popScope

theorem goes_returnTop (h : Inside Q J c.regions Rs C) :
    Goes Q J [] ⟨1, C⟩ ⟨0, C⟩ (returnTopAt c) fun K => returnTopAt (c.among (Rs K)) := by
  have hstore : ∀ t, Lifts Q C 1 0 (emitWith c .storeLocal (.temporary t)) := fun _ => Lifts.op rfl rfl rfl rfl
  have hany : ∀ K, (c.among (Rs K)).regions.any Region.isFinalized = c.regions.any Region.isFinalized := h.any_isFinalized
  simp only [returnTopAt, hany]
  split
  · exact .temporary fun value => (Goes.of_lifts (hstore value) 0).seq
      ((exits_returnAt value h ⟨0, C⟩ Rs).goes (List.Subset.refl _))
  · exact goes_leave (.inl rfl) 0

end

/-! ## Statements -/

mutual

/-- No `try` statement in it has both a handler and a finalizer. Functions in it are units of their
own. -/
def Stmt.oneClause : Stmt → Bool
  | ⟨_, _, kind⟩ => kind.oneClause

def StmtKind.oneClause : StmtKind → Bool
  | .block body => bodyOneClause body
  | .branch _ consequent alternate => consequent.oneClause && alternateOneClause alternate
  | .loop _ body => body.oneClause
  | .switch _ cases => casesOneClause cases
  | .attempt block handler finalizer =>
    !(handler.isSome && finalizer.isSome) && bodyOneClause block && handlerOneClause handler &&
      finalizerOneClause finalizer
  | .scoped _ body => body.oneClause
  | .var _ | .function _ | .expression _ | .returns _ | .breaks _ | .continues _ | .throws _ | .empty => true

def alternateOneClause : Option Stmt → Bool
  | none => true
  | some s => s.oneClause

def handlerOneClause : Option CatchClause → Bool
  | none => true
  | some ⟨_, body⟩ => bodyOneClause body

def finalizerOneClause : Option (List Stmt) → Bool
  | none => true
  | some body => bodyOneClause body

def bodyOneClause : List Stmt → Bool
  | [] => true
  | s :: ss => s.oneClause && bodyOneClause ss

def casesOneClause : List SwitchCase → Bool
  | [] => true
  | ⟨_, body⟩ :: cs => bodyOneClause body && casesOneClause cs

end

def PartGoes {u : CodeUnit} (Q : Rules u) (x : Part) (N : (Nat → Nat → Prop) → Part) : Prop :=
  ∀ {J c C Rs}, c.unit = u → Q.sees c.env C → Inside Q J c.regions Rs C →
    Goes Q J [] ⟨0, C⟩ ⟨0, C⟩ (x c) fun K => N K (c.among (Rs K))

inductive OptionGoes {u : CodeUnit} (Q : Rules u) : Option Part → ((Nat → Nat → Prop) → Option Part) → Prop
  | none : OptionGoes Q none fun _ => none
  | some {x N} : PartGoes Q x N → OptionGoes Q (some x) fun K => some (N K)

inductive HandlerGoes {u : CodeUnit} (Q : Rules u) :
    Option (Identifier × Part) → ((Nat → Nat → Prop) → Option (Identifier × Part)) → Prop
  | none : HandlerGoes Q none fun _ => none
  | some {x N} (param : Identifier) : PartGoes Q x N → HandlerGoes Q (some (param, x)) fun K => some (param, N K)

inductive CasesGo {u : CodeUnit} (Q : Rules u) :
    List (Option Expr × Part) → ((Nat → Nat → Prop) → List (Option Expr × Part)) → Prop
  | nil : CasesGo Q [] fun _ => []
  | cons {x N cs Ns} {test : Option Expr} : Q.Covers (optionIsDynamic test) → PartGoes Q x N → CasesGo Q cs Ns →
      CasesGo Q ((test, x) :: cs) fun K => (test, N K) :: Ns K

inductive ClausesGo {u : CodeUnit} (Q : Rules u) : List Clause → ((Nat → Nat → Prop) → List Clause) → Prop
  | nil : ClausesGo Q [] fun _ => []
  | cons {x N cs Ns} {test : Option Expr} (position : Nat) : Q.Covers (optionIsDynamic test) → PartGoes Q x N →
      ClausesGo Q cs Ns → ClausesGo Q (⟨test, x, position⟩ :: cs) fun K => ⟨test, N K, position⟩ :: Ns K

section

variable {u : CodeUnit} {c : Setting} {Q : Rules c.unit} {J : Nat → Shape → Prop} {C : List Open}
  {Rs : (Nat → Nat → Prop) → List Region}

/-- Code between statements: the stack is empty, and what is open stays open. -/
def Nests {u : CodeUnit} (Q : Rules u) (J : Nat → Shape → Prop) (C : List Open) (x : Code) : Prop :=
  Goes Q J [] ⟨0, C⟩ ⟨0, C⟩ x fun _ => x

theorem lifts_declarators (hs : Q.sees c.env C) :
    ∀ ds : List Declarator, Q.Covers (ds.any Declarator.isDynamic) → Lifts Q C 0 0 (declaratorsAt c ds)
  | [], _ => Lifts.nil
  | ⟨_, none⟩ :: ds, hd => lifts_declarators hs ds hd.right
  | ⟨id, some init⟩ :: ds, hd =>
    (lifts_expr hs init hd.left).seq ((lifts_store hs id.name).seq ((Lifts.op rfl rfl rfl rfl : Lifts Q C 1 0 _).seq
      (lifts_declarators hs ds hd.right)))

theorem lifts_evaluation (hs : Q.sees c.env C) (e : Expr) (hd : Q.Covers e.isDynamic) :
    Lifts Q C 0 0 (evaluationAt c e) := by
  refine (lifts_expr hs e hd).seq ?_
  cases c.completion with
  | some t => exact Lifts.op rfl rfl rfl rfl
  | none => exact Lifts.op rfl rfl rfl rfl

theorem goes_branch {Q : Rules u} {test : Expr} (hd : Q.Covers test.isDynamic) {consequent : Part}
    {alternate : Option Part} {N N'} (hc : PartGoes Q consequent N) (ha : OptionGoes Q alternate N') :
    PartGoes Q (fun c => branchAt c test consequent alternate) fun K c => branchAt c test (N K) (N' K) := by
  rintro J c C Rs rfl hs hin
  simp only [branchAt, exprAt_among]
  cases ha with
  | none =>
    exact .label ⟨0, C⟩ (by simp) fun otherwise => (Goes.of_lifts (lifts_expr hs test hd) 0).seq
      ((goes_test (.inl rfl) .here).seq ((hc rfl hs hin.aims).seq (.mark otherwise)))
  | some ha =>
    exact .label ⟨0, C⟩ (by simp) fun otherwise => (Goes.of_lifts (lifts_expr hs test hd) 0).seq
      ((goes_test (.inl rfl) .here).seq ((hc rfl hs hin.aims).seq
        (.label ⟨0, C⟩ (M := [(otherwise, ⟨0, C⟩)]) (by simp) fun done => (goes_jump .here 0).seq
          ((Goes.mark otherwise).seq ((ha rfl hs hin.aims.aims).seq (.mark done))))))

/-! ### Loops -/

theorem Rules.Covers.counted {Q : Rules u} {init : Option LoopInit} {test update : Option Expr}
    (hd : Q.Covers (LoopHead.counted init test update).isDynamic) :
    Q.Covers (init.any LoopInit.isDynamic) ∧ Q.Covers (optionIsDynamic test) ∧ Q.Covers (optionIsDynamic update) := by
  rw [LoopHead.isDynamic, Rules.covers_or, Rules.covers_or] at hd
  exact ⟨hd.1.1, hd.1.2, hd.2⟩

theorem Rules.Covers.forIn {Q : Rules u} {target : KeyTarget} {object : Expr}
    (hd : Q.Covers (LoopHead.forIn target object).isDynamic) : Q.Covers target.isDynamic ∧ Q.Covers object.isDynamic :=
  Rules.covers_or.1 hd

theorem lifts_loopInit (hs : Q.sees c.env C) (head : LoopHead) (hd : Q.Covers head.isDynamic) (keys : Nat) :
    Lifts Q C 0 0 (loopInitAt c head keys) := by
  have hprepare : Lifts Q C 1 0 (emitWith c .forInPrepare (.temporary keys)) := Lifts.op rfl rfl rfl rfl
  match head, hd with
  | .counted none _ _, _ | .whileTest _, _ | .doWhile _, _ => exact Lifts.nil
  | .counted (some (.declare ds)) _ _, hd => exact lifts_declarators hs ds hd.counted.1
  | .counted (some (.evaluate e)) _ _, hd => exact (lifts_expr hs e hd.counted.1).seq (Lifts.op rfl rfl rfl rfl)
  | .forIn (.declare d) object, hd =>
    have hdeclared : Q.Covers ([d].any Declarator.isDynamic) := by
      rw [List.any_cons, List.any_nil, Bool.or_false]
      exact hd.forIn.1
    exact (lifts_declarators hs [d] hdeclared).seq ((lifts_expr hs object hd.forIn.2).seq hprepare)
  | .forIn (.assign _) object, hd => exact (lifts_expr hs object hd.forIn.2).seq hprepare

theorem lifts_loopCondition (hs : Q.sees c.env C) (head : LoopHead) (hd : Q.Covers head.isDynamic) (keys : Nat) :
    Lifts Q C 0 1 (loopConditionAt c head keys) := by
  match head, hd with
  | .counted _ (some test) _, hd =>
    have htest := hd.counted.2.1
    rw [optionIsDynamic] at htest
    exact lifts_expr hs test htest
  | .whileTest test, hd | .doWhile test, hd => exact lifts_expr hs test hd
  | .counted _ none _, _ => exact Lifts.op rfl rfl rfl rfl
  | .forIn _ _, _ => exact Lifts.op rfl rfl rfl rfl

theorem goes_loopTest (hs : Q.sees c.env C) (head : LoopHead) (hd : Q.Covers head.isDynamic) (keys : Nat) {exit : Nat}
    (hJ : J exit ⟨0, C⟩) : Nests Q J C (loopTestAt c head keys exit) := by
  have htest : Nests Q J C (loopConditionAt c head keys ++ jump c .jumpIfFalse exit) :=
    (Goes.of_lifts (lifts_loopCondition hs head hd keys) 0).seq (goes_test (.inl rfl) hJ)
  match head, htest with
  | .counted _ none _, _ => exact Goes.of_lifts (k := 0) Lifts.nil 0
  | .counted _ (some _) _, htest | .whileTest _, htest | .doWhile _, htest | .forIn _ _, htest => exact htest

theorem goes_firstTest (hs : Q.sees c.env C) (head : LoopHead) (hd : Q.Covers head.isDynamic) (keys : Nat) {exit : Nat}
    (hJ : J exit ⟨0, C⟩) :
    Nests Q J C (if Lowering.testsLast head then .nil else loopTestAt c head keys exit) := by
  split
  · exact Goes.of_lifts (k := 0) Lifts.nil 0
  · exact goes_loopTest hs head hd keys hJ

theorem lifts_assignTop (hs : Q.sees c.env C) (e : Expr) (hd : Q.Covers e.isDynamic) :
    Lifts Q C 1 1 (assignTopAt c e) := by
  have hr : RefLifts Q C (referenceAt c e) := lifts_reference hs e hd
  unfold assignTopAt
  generalize referenceAt c e = r at hr
  match r, hr with
  | .name name, _ => exact lifts_store hs name
  | .property object key, ⟨hobject, hkey⟩ =>
    exact Lifts.temporary fun value => (Lifts.op rfl rfl rfl rfl : Lifts Q C 1 0 _).seq (hobject.seq ((hkey.above 1).seq
      (((Lifts.op rfl rfl rfl rfl : Lifts Q C 0 1 _).above 2).seq (Lifts.op rfl rfl rfl rfl))))
  | .value, _ => exact Lifts.never

theorem lifts_loopKey (hs : Q.sees c.env C) (head : LoopHead) (hd : Q.Covers head.isDynamic) (keys : Nat) :
    Lifts Q C 0 0 (loopKeyAt c head keys) := by
  have hnext : Lifts Q C 0 1 (emitWith c .forInNext (.temporary keys)) := Lifts.op rfl rfl rfl rfl
  match head, hd with
  | .counted _ _ _, _ | .whileTest _, _ | .doWhile _, _ => exact Lifts.nil
  | .forIn (.declare d) _, _ => exact hnext.seq ((lifts_store hs d.id.name).seq (Lifts.op rfl rfl rfl rfl))
  | .forIn (.assign e) _, hd => exact hnext.seq ((lifts_assignTop hs e hd.forIn.1).seq (Lifts.op rfl rfl rfl rfl))

theorem goes_round (hs : Q.sees c.env C) (head : LoopHead) (hd : Q.Covers head.isDynamic) (keys : Nat)
    (labels : List String) {body : Part} {N} (hb : PartGoes Q body N) (hin : Inside Q J c.regions Rs C)
    {breakTo continueTo : Nat} (hbreak : J breakTo ⟨0, C⟩)
    (hcontinue : J continueTo ⟨0, C⟩) :
    Goes Q J [] ⟨0, C⟩ ⟨0, C⟩ (roundAt c head keys labels body breakTo continueTo)
      fun K => roundAt (c.among (Rs K)) head keys labels (N K) breakTo continueTo := by
  simp only [roundAt, loopKeyAt_among]
  refine (Goes.of_lifts (lifts_loopKey hs head hd keys) 0).seq
    (hb (c := c.within (.breakable labels .loop breakTo (some continueTo))) rfl hs (.breakable hbreak ?_ hin))
  rintro t ⟨⟩
  exact hcontinue

theorem lifts_loopUpdate (hs : Q.sees c.env C) (head : LoopHead) (hd : Q.Covers head.isDynamic) :
    Lifts Q C 0 0 (loopUpdateAt c head) := by
  match head, hd with
  | .counted _ _ (some update), hd =>
    have hupdate := hd.counted.2.2
    rw [optionIsDynamic] at hupdate
    exact (lifts_expr hs update hupdate).seq (Lifts.op rfl rfl rfl rfl)
  | .counted _ _ none, _ | .whileTest _, _ | .doWhile _, _ | .forIn _ _, _ => exact Lifts.nil

theorem goes_rotatedLoop (hs : Q.sees c.env C) (head : LoopHead) (hd : Q.Covers head.isDynamic) (keys : Nat)
    (labels : List String) {body : Part} {N} (hb : PartGoes Q body N) (hin : Inside Q J c.regions Rs C) :
    Goes Q J [] ⟨0, C⟩ ⟨0, C⟩ (rotatedLoopAt c head keys labels body)
      fun K => rotatedLoopAt (c.among (Rs K)) head keys labels (N K) := by
  simp only [rotatedLoopAt, loopTestAt_among, loopUpdateAt_among]
  have hupdate : ∀ {J}, Nests Q J C (loopUpdateAt c head) := fun {J} =>
    .of_lifts (lifts_loopUpdate hs head hd) 0
  exact .label ⟨0, C⟩ (by simp) fun done => .label ⟨0, C⟩ (M := [(done, ⟨0, C⟩)]) (by simp) fun firstContinue =>
    (goes_firstTest hs head hd keys (.there .here)).seq
    ((goes_round hs head hd keys labels hb hin.aims.aims (.there .here) .here).seq ((Goes.mark firstContinue).seq (hupdate.seq
    (.label ⟨0, C⟩ (M := [(done, ⟨0, C⟩)]) (by simp) fun top =>
      .label ⟨0, C⟩ (M := [(top, ⟨0, C⟩), (done, ⟨0, C⟩)]) (by simp) fun laterDone =>
      .label ⟨0, C⟩ (M := [(top, ⟨0, C⟩), (laterDone, ⟨0, C⟩), (done, ⟨0, C⟩)]) (by simp) fun laterContinue =>
        (Goes.mark top).seq ((goes_loopTest hs head hd keys (.there .here)).seq
        ((goes_round hs head hd keys labels hb hin.aims.aims.aims.aims.aims (.there .here) .here).seq
        ((Goes.mark laterContinue).seq (hupdate.seq ((goes_jump (.there (.there .here)) 0).seq
        ((Goes.mark laterDone).seq (Goes.mark done)))))))))))

theorem goes_simpleLoop (hs : Q.sees c.env C) (head : LoopHead) (hd : Q.Covers head.isDynamic) (keys : Nat)
    (labels : List String) {body : Part} {N} (hb : PartGoes Q body N) (hin : Inside Q J c.regions Rs C) :
    Goes Q J [] ⟨0, C⟩ ⟨0, C⟩ (simpleLoopAt c head keys labels body)
      fun K => simpleLoopAt (c.among (Rs K)) head keys labels (N K) := by
  simp only [simpleLoopAt, loopTestAt_among, loopConditionAt_among, loopUpdateAt_among]
  have hagain : ∀ {J : Nat → Shape → Prop} {top start}, J top ⟨0, C⟩ → J start ⟨0, C⟩ → Nests Q J C
      (if Lowering.testsLast head then loopConditionAt c head keys ++ jump c .jumpIfTrue start
        else jump c .jump top) := by
    intro J top start htop hstart
    split
    · exact (Goes.of_lifts (lifts_loopCondition hs head hd keys) 0).seq (goes_test (.inr rfl) hstart)
    · exact goes_jump htop 0
  exact .label ⟨0, C⟩ (by simp) fun top => .label ⟨0, C⟩ (M := [(top, ⟨0, C⟩)]) (by simp) fun start =>
    .label ⟨0, C⟩ (M := [(top, ⟨0, C⟩), (start, ⟨0, C⟩)]) (by simp) fun next =>
    .label ⟨0, C⟩ (M := [(top, ⟨0, C⟩), (start, ⟨0, C⟩), (next, ⟨0, C⟩)]) (by simp) fun done =>
      (Goes.mark top).seq ((goes_firstTest hs head hd keys .here).seq ((Goes.mark start).seq
      ((goes_round hs head hd keys labels hb hin.aims.aims.aims.aims .here (.there .here)).seq ((Goes.mark next).seq
      ((Goes.of_lifts (lifts_loopUpdate hs head hd) 0).seq
      ((hagain (.there (.there (.there .here))) (.there (.there .here))).seq (Goes.mark done)))))))

theorem goes_loop {Q : Rules u} {head : LoopHead} (hd : Q.Covers head.isDynamic) (labels : List String) {body : Part} {N}
    (hb : PartGoes Q body N) :
    PartGoes Q (fun c => loopAt c head labels body) fun K c => loopAt c head labels (N K) := by
  rintro J c C Rs rfl hs hin
  have h : ∀ keys, Goes Q J [] ⟨0, C⟩ ⟨0, C⟩
      (loopInitAt c head keys ++ if c.options.loopRotation then rotatedLoopAt c head keys labels body
        else simpleLoopAt c head keys labels body)
      fun K => loopInitAt (c.among (Rs K)) head keys ++
        if c.options.loopRotation then rotatedLoopAt (c.among (Rs K)) head keys labels (N K)
        else simpleLoopAt (c.among (Rs K)) head keys labels (N K) := by
    intro keys
    simp only [loopInitAt_among]
    refine (Goes.of_lifts (lifts_loopInit hs head hd keys) 0).seq ?_
    split
    · exact goes_rotatedLoop hs head hd keys labels hb hin
    · exact goes_simpleLoop hs head hd keys labels hb hin
  match head, h with
  | .forIn _ _, h => exact .temporary h
  | .counted _ _ _, h | .whileTest _, h | .doWhile _, h => exact h 0

/-! ### Switch -/

theorem CasesGo.clauses {Q : Rules u} {cases : List (Option Expr × Part)} {N} (h : CasesGo Q cases N) {cs : List Clause}
    (hcs : cs.map (fun k => (k.test, k.body)) = cases) :
    ∃ N', ClausesGo Q cs N' ∧ ∀ K, (N' K).map (fun k => (k.test, k.body)) = N K := by
  induction h generalizing cs with
  | nil =>
    cases List.map_eq_nil_iff.1 hcs
    exact ⟨_, .nil, fun _ => rfl⟩
  | cons hd hb _ ih =>
    obtain ⟨⟨_, _, p⟩, cs, rfl, hk, hrest⟩ := List.map_eq_cons_iff.1 hcs
    obtain ⟨rfl, rfl⟩ := Prod.mk.inj hk
    obtain ⟨N', h, hN'⟩ := ih hrest
    exact ⟨_, .cons p hd hb h, fun K => congrArg (_ :: ·) (hN' K)⟩

theorem goes_clauseTests (hs : Q.sees c.env C) (value : Nat) {cs : List Clause} {N} (hcs : ClausesGo Q cs N)
    (hJ : ∀ k ∈ cs, J k.position ⟨0, C⟩) :
    Goes Q J [] ⟨0, C⟩ ⟨0, C⟩ (clauseTestsAt c value cs) fun K => clauseTestsAt c value (N K) := by
  induction hcs with
  | nil => exact Goes.of_lifts (k := 0) Lifts.nil 0
  | @cons x N cs Ns test p hd _ _ ih =>
    have ih := ih fun k hk => hJ k (.tail _ hk)
    cases test with
    | none => exact ih
    | some test =>
      have hload : Lifts Q C 0 1 (emitWith c .loadLocal (.temporary value)) := Lifts.op rfl rfl rfl rfl
      have hcompare : Lifts Q C 2 1 (emit c .strictEq) := Lifts.op rfl rfl rfl rfl
      rw [optionIsDynamic] at hd
      exact (Goes.of_lifts hload 0).seq ((Goes.of_lifts ((lifts_expr hs test hd).above 1) 0).seq
        ((Goes.of_lifts hcompare 0).seq ((goes_test (.inr rfl) (hJ _ (.head _))).seq ih)))

theorem goes_clauseBodies (hs : Q.sees c.env C) {cs : List Clause} {N} (hcs : ClausesGo Q cs N)
    (hin : Inside Q J c.regions Rs C) :
    Goes Q J (cs.map fun k => (k.position, ⟨0, C⟩)) ⟨0, C⟩ ⟨0, C⟩ (clauseBodiesAt c cs)
      fun K => clauseBodiesAt (c.among (Rs K)) (N K) := by
  induction hcs with
  | nil => exact Goes.of_lifts (k := 0) Lifts.nil 0
  | cons p _ hb _ ih => exact (Goes.mark p).seq ((hb rfl hs hin).seq ih)

theorem ClausesGo.defaultPosition_eq {Q : Rules u} {cs : List Clause} {N} (h : ClausesGo Q cs N) (done : Nat) (K) :
    defaultPosition done (N K) = defaultPosition done cs := by
  induction h generalizing done with
  | nil => rfl
  | cons p _ _ _ ih => exact ih _

theorem defaultPosition_mem (done : Nat) (cs : List Clause) :
    defaultPosition done cs ∈ done :: cs.map Clause.position := by
  induction cs generalizing done with
  | nil => exact .head _
  | cons k cs ih =>
    rw [defaultPosition, List.map_cons]
    have h := ih (if k.test.isNone then k.position else done)
    rw [List.mem_cons] at h
    rcases h with h | h
    · rw [h]
      split <;> simp
    · exact .tail _ (.tail _ h)

theorem goes_switch {Q : Rules u} {discriminant : Expr} (hd : Q.Covers discriminant.isDynamic) (labels : List String)
    {cases : List (Option Expr × Part)} {N} (h : CasesGo Q cases N) :
    PartGoes Q (fun c => switchAt c discriminant labels cases) fun K c => switchAt c discriminant labels (N K) := by
  rintro J c C Rs rfl hs hin
  have hstore : ∀ value, Lifts Q C 1 0 (emitWith c .storeLocal (.temporary value)) := fun _ => Lifts.op rfl rfl rfl rfl
  simp only [switchAt, exprAt_among, clauseTestsAt_among]
  refine .temporary fun value => (Goes.of_lifts (lifts_expr hs discriminant hd) 0).seq
    ((Goes.of_lifts (hstore value) 0).seq (.label ⟨0, C⟩ (P := fun done => [(done, ⟨0, C⟩)]) (by simp) fun done =>
      .choice fun cs hcs => ?_))
  obtain ⟨N', hN, hmap⟩ := h.clauses hcs
  have hregion : Inside Q (Aims (Aims J [(done, ⟨0, C⟩)]) (cs.map fun k => (k.position, ⟨0, C⟩)))
      (.breakable labels .switch done none :: c.regions) (fun K => .breakable labels .switch done none :: Rs K) C :=
    .breakable (.there .here) nofun hin.aims.aims
  have hdefault : Aims (Aims J [(done, ⟨0, C⟩)]) (cs.map fun k => (k.position, ⟨0, C⟩)) (defaultPosition done cs)
      ⟨0, C⟩ := by
    rcases List.mem_cons.1 (defaultPosition_mem done cs) with h | h
    · rw [h]
      exact .there .here
    · exact .inl (by simpa using h)
  have hclause : ∀ k ∈ cs, Aims (Aims J [(done, ⟨0, C⟩)]) (cs.map fun k => (k.position, ⟨0, C⟩)) k.position ⟨0, C⟩ :=
    fun k hk => .inl (List.mem_map_of_mem hk)
  have hbodies := goes_clauseBodies (c := c.within (.breakable labels .switch done none)) hs hN hregion
  refine (((goes_clauseTests (c := c) hs value hN hclause).seq
    ((goes_jump (c := c) hdefault 0).seq (hbodies.seq (Goes.mark done)))).close
    (M := [(done, ⟨0, C⟩)]) (List.subset_append_left _ _) (List.subset_append_right _ _)).notes fun K a b hK => ?_
  refine ⟨N' K, hmap K, ?_⟩
  rwa [hN.defaultPosition_eq]

/-! ### Exceptions and scopes -/

theorem goes_catch (hs : Q.sees c.env C) (param : Identifier) {body : Part} {N} (hb : PartGoes Q body N)
    (hin : Inside Q J c.regions Rs C) :
    Goes Q J [] ⟨1, C⟩ ⟨0, C⟩ (catchAt c param body) fun K => catchAt (c.among (Rs K)) param (N K) :=
  goes_pushCatchScope param.name fun _ _ hi =>
    (hb (c := c.inScope _) rfl (Q.caught param.name hs hi) (.scope hin)).seq goes_popScope

theorem goes_scoped {Q : Rules u} (hdynamic : Q.dynamic) (object : Expr) {body : Part} {N} (hb : PartGoes Q body N) :
    PartGoes Q (fun c => scopedAt c object body) fun K c => scopedAt c object (N K) := by
  rintro J c C Rs rfl hs hin
  simp only [scopedAt, exprAt_among]
  exact (Goes.of_lifts (lifts_expr hs object fun _ => hdynamic) 0).seq (goes_pushWithScope hdynamic fun _ hi =>
    (hb (c := c.inScope []) rfl (Q.object hi) (.scope hin)).seq goes_popScope)

theorem goes_finalizer (hs : Q.sees c.env C) {finalizer : Part} {N} (hf : PartGoes Q finalizer N)
    (hin : Inside Q J c.regions Rs C) {done rethrow : Nat} (hJ : J done ⟨0, C⟩) :
    Goes Q J [(rethrow, ⟨1, C⟩)] ⟨0, C⟩ ⟨0, C⟩ (finalizerAt c (some finalizer) done rethrow)
      fun K => finalizerAt (c.among (Rs K)) (some (N K)) done rethrow := by
  have hstore : ∀ t, Lifts Q C 1 0 (emitWith c .storeLocal (.temporary t)) := fun _ => Lifts.op rfl rfl rfl rfl
  have hload : ∀ t, Lifts Q C 0 1 (emitWith c .loadLocal (.temporary t)) := fun _ => Lifts.op rfl rfl rfl rfl
  exact (hf rfl hs hin).seq ((goes_jump hJ 1).seq ((Goes.mark rethrow).seq (.temporary fun exception =>
    (Goes.of_lifts (hstore exception) 0).seq ((hf rfl hs hin).seq
      ((Goes.of_lifts (hload exception) 0).seq (goes_leave (.inr rfl) 0))))))

theorem goes_handler (hs : Q.sees c.env C) {param : Identifier} {body : Part} {finalized : Bool} {N}
    (hX : Q.flat → finalized = false) (hb : PartGoes Q body N) {finalizer : Option Code}
    {Nf : (Nat → Nat → Prop) → Option Code}
    (hin : Inside Q J c.regions Rs C) (hf : Finalizes Q J C finalizer Nf) {rethrow caught : Nat}
    (hJ : finalized = true → J rethrow ⟨1, C⟩) :
    Goes Q J [(caught, ⟨1, C⟩)] ⟨1, C⟩ ⟨0, C⟩
      (handlerAt c (some (param, body)) finalized (c.within (.attempt finalizer)) rethrow caught)
      fun K => handlerAt (c.among (Rs K)) (some (param, N K)) finalized ((c.among (Rs K)).within (.attempt (Nf K)))
        rethrow caught := by
  refine (Goes.mark caught).seq ?_
  cases finalized with
  | false => exact goes_catch hs param hb hin
  | true =>
    exact goes_enterTry (fun hx => nomatch hX hx) (hJ rfl) fun _ =>
      (goes_catch (c := c.within (.attempt finalizer)) (Q.attempt hs) param hb (.attempt hf hin)).seq goes_leaveTry

theorem goes_attempt {Q : Rules u} {block : Part} {handler : Option (Identifier × Part)} {finalizer : Option Part}
    {N Nh Nf} (hX : Q.flat → (handler.isSome && finalizer.isSome) = false) (hb : PartGoes Q block N)
    (hh : HandlerGoes Q handler Nh) (hf : OptionGoes Q finalizer Nf) :
    PartGoes Q (fun c => attemptAt c block handler finalizer) fun K c => attemptAt c (N K) (Nh K) (Nf K) := by
  rintro J c C Rs rfl hs hin
  have hfinal : ∀ {J}, Inside Q J c.regions Rs C → Finalizes Q J C (finalizer.map fun f => f c)
      fun K => (Nf K).map fun f => f (c.among (Rs K)) := by
    intro J hin
    cases hf with
    | none => exact .none
    | some hf => exact .some (hf rfl hs hin)
  have hblock : ∀ {J} e, Inside Q J c.regions Rs C → Goes Q J [] ⟨0, .attempt e :: C⟩ ⟨0, .attempt e :: C⟩
      (block (c.within (.attempt (finalizer.map fun f => f c))))
      fun K => N K ((c.among (Rs K)).within (.attempt ((Nf K).map fun f => f (c.among (Rs K))))) :=
    fun e hin => hb (c := c.within _) rfl (Q.attempt hs) (.attempt (hfinal hin) hin)
  cases hh with
  | none =>
    cases hf with
    | none => exact fun _ _ _ h => h.elim
    | some hf =>
      exact .label ⟨0, C⟩ (by simp) fun done => .label ⟨1, C⟩ (M := [(done, ⟨0, C⟩)]) (by simp) fun rethrow =>
        .unused fun caught => goes_enterTry (fun _ => rfl) .here fun e => (hblock e hin.aims.aims).seq (goes_leaveTry.seq
          (.label ⟨0, C⟩ (M := [(done, ⟨0, C⟩), (rethrow, ⟨1, C⟩)]) (by simp) fun after => (goes_jump .here 0).seq
            ((Goes.of_lifts (k := 0) Lifts.nil 0).seq ((Goes.mark after).seq
              ((goes_finalizer hs hf hin.aims.aims.aims (.there (.there .here))).seq (Goes.mark done))))))
  | some param hh =>
    cases hf with
    | none =>
      exact .label ⟨0, C⟩ (by simp) fun done => .unused fun rethrow =>
        .label ⟨1, C⟩ (M := [(done, ⟨0, C⟩)]) (by simp) fun caught =>
        goes_enterTry (fun _ => rfl) .here fun e => (hblock e hin.aims.aims).seq (goes_leaveTry.seq
          (.label ⟨0, C⟩ (M := [(done, ⟨0, C⟩), (caught, ⟨1, C⟩)]) (by simp) fun after => (goes_jump .here 1).seq
            ((goes_handler hs (fun _ => rfl) hh hin.aims.aims.aims (hfinal hin.aims.aims.aims) nofun).seq
              ((Goes.mark after).seq ((Goes.of_lifts (k := 0) Lifts.nil 0).seq (Goes.mark done))))))
    | some hf =>
      exact .label ⟨0, C⟩ (by simp) fun done => .label ⟨1, C⟩ (M := [(done, ⟨0, C⟩)]) (by simp) fun rethrow =>
        .label ⟨1, C⟩ (M := [(done, ⟨0, C⟩), (rethrow, ⟨1, C⟩)]) (by simp) fun caught =>
          goes_enterTry (fun _ => rfl) .here fun e => (hblock e hin.aims.aims.aims).seq (goes_leaveTry.seq
            (.label ⟨0, C⟩ (M := [(done, ⟨0, C⟩), (rethrow, ⟨1, C⟩), (caught, ⟨1, C⟩)]) (by simp) fun after =>
              (goes_jump .here 1).seq
              ((goes_handler hs hX hh hin.aims.aims.aims.aims (hfinal hin.aims.aims.aims.aims)
                fun _ => .there (.there .here)).seq ((Goes.mark after).seq
              ((goes_finalizer hs hf hin.aims.aims.aims.aims (.there (.there (.there .here)))).seq (Goes.mark done))))))

/-! ### All statements -/

theorem goes_labelled {Q : Rules u} (labels : List String) {statement : Part} {N} (hs : PartGoes Q statement N) :
    PartGoes Q (fun c => labelledAt c labels statement) fun K c => labelledAt c labels (N K) := by
  rintro J c C Rs hu hsees hin
  unfold labelledAt
  split
  · exact hs hu hsees hin
  · exact .label ⟨0, C⟩ (by simp) fun exit =>
      (hs (c := c.within (.breakable labels .labelled exit none)) hu hsees (.breakable .here nofun hin.aims)).seq
        (Goes.mark exit)

theorem lifts_returnValue (hs : Q.sees c.env C) (value : Option Expr) :
    Q.Covers (optionIsDynamic value) → Lifts Q C 0 1 (match value with
      | some e => exprAt c e
      | none => emit c .loadUndefined) := by
  intro hd
  cases value with
  | some e =>
    rw [optionIsDynamic] at hd
    exact lifts_expr hs e hd
  | none => exact Lifts.op rfl rfl rfl rfl

theorem goes_returnStmt {Q : Rules u} {value : Option Expr} (hd : Q.Covers (optionIsDynamic value)) :
    PartGoes Q (fun c => returnStmtAt c value) fun _ c => returnStmtAt c value := by
  rintro J c C Rs rfl hs hin
  simp only [returnStmtAt, exprAt_among]
  exact (Goes.of_lifts (lifts_returnValue hs value hd) 0).seq (goes_returnTop hin)

theorem goes_throw {Q : Rules u} {value : Expr} (hd : Q.Covers value.isDynamic) :
    PartGoes Q (fun c => exprAt c value ++ emit c .throwValue) fun _ c => exprAt c value ++ emit c .throwValue := by
  rintro J c C Rs rfl hs _
  simp only [exprAt_among]
  exact (Goes.of_lifts (lifts_expr hs value hd) 0).seq (goes_leave (.inr rfl) 0)

theorem goes_jumpAt {Q : Rules u} (kind : Lowering.JumpKind) (label : Option String) :
    PartGoes Q (fun c => jumpAt c kind label c.regions) fun _ c => jumpAt c kind label c.regions := by
  rintro J c C Rs rfl _ hin
  exact (exits_jumpAt kind label hin _ _).goes (List.Subset.refl _)

theorem isSome_handlerPart (handler : Option CatchClause) : (handlerPart handler).isSome = handler.isSome := by
  rcases handler with - | ⟨_, _⟩ <;> rw [handlerPart] <;> rfl

theorem isSome_finalizerPart (finalizer : Option (List Stmt)) :
    (finalizerPart finalizer).isSome = finalizer.isSome := by
  cases finalizer <;> rw [finalizerPart] <;> rfl

section

variable {Q : Rules u}

mutual

/-- **The code of a statement leaves the stack and what is open as they were.** -/
theorem goes_stmt : ∀ s : Stmt, (Q.flat → s.oneClause = true) → Q.Covers s.isDynamic →
    PartGoes Q (stmtAt s) fun K => stmtNoting K s
  | ⟨labels, _, kind⟩, hX, hd => fun hu hs hin => (goes_labelled labels (goes_kind kind labels hX hd) hu hs hin).noted

theorem goes_kind : ∀ (kind : StmtKind) (labels : List String), (Q.flat → kind.oneClause = true) →
    Q.Covers kind.isDynamic → PartGoes Q (kindAt kind labels) fun K => kindNoting K kind labels
  | .var ds, _, _, hd => by
    rw [StmtKind.isDynamic] at hd
    simp only [kindNoting, kindAt, declaratorsAt_among]
    rintro rfl hs -
    exact .of_lifts (lifts_declarators hs ds hd) 0
  | .function _, _, _, _ | .empty, _, _, _ => fun _ _ _ => Goes.of_lifts (k := 0) Lifts.nil 0
  | .expression e, _, _, hd => by
    rw [StmtKind.isDynamic] at hd
    simp only [kindNoting, kindAt, evaluationAt_among]
    rintro rfl hs -
    exact .of_lifts (lifts_evaluation hs e hd) 0
  | .block body, _, hX, hd => goes_body body hX hd
  | .branch test consequent alternate, _, hX, hd => by
    rw [StmtKind.isDynamic, Rules.covers_or, Rules.covers_or] at hd
    simp only [StmtKind.oneClause, Bool.and_eq_true] at hX
    exact goes_branch hd.1.1 (goes_stmt consequent (fun hx => (hX hx).1) hd.1.2)
      (goes_alternate alternate (fun hx => (hX hx).2) hd.2)
  | .loop head body, labels, hX, hd => goes_loop hd.left labels (goes_stmt body hX hd.right)
  | .switch discriminant cases, labels, hX, hd => goes_switch hd.left labels (goes_cases cases hX hd.right)
  | .returns value, _, _, hd => goes_returnStmt hd
  | .breaks label, _, _, _ | .continues label, _, _, _ => goes_jumpAt _ _
  | .throws value, _, _, hd => goes_throw hd
  | .attempt block handler finalizer, _, hX, hd => by
    rw [StmtKind.isDynamic, Rules.covers_or, Rules.covers_or] at hd
    simp only [StmtKind.oneClause, Bool.and_eq_true, Bool.not_eq_true'] at hX
    refine goes_attempt (fun hx => ?_) (goes_body block (fun hx => (hX hx).1.1.2) hd.1.1)
      (goes_catchClause handler (fun hx => (hX hx).1.2) hd.1.2) (goes_finally finalizer (fun hx => (hX hx).2) hd.2)
    rw [isSome_handlerPart, isSome_finalizerPart]
    exact (hX hx).1.1.1
  | .scoped object body, _, hX, hd => goes_scoped (hd rfl) object (goes_stmt body hX fun _ => hd rfl)

theorem goes_alternate : ∀ alternate : Option Stmt, (Q.flat → alternateOneClause alternate = true) →
    Q.Covers (alternateDynamic alternate) → OptionGoes Q (alternateAt alternate) fun K => alternateNoting K alternate
  | none, _, _ => .none
  | some s, hX, hd => .some (goes_stmt s hX hd)

theorem goes_catchClause : ∀ handler : Option CatchClause, (Q.flat → handlerOneClause handler = true) →
    Q.Covers (handlerDynamic handler) → HandlerGoes Q (handlerPart handler) fun K => handlerNoting K handler
  | none, _, _ => .none
  | some ⟨param, body⟩, hX, hd => .some param (goes_body body hX hd)

theorem goes_finally : ∀ finalizer : Option (List Stmt), (Q.flat → finalizerOneClause finalizer = true) →
    Q.Covers (finalizerDynamic finalizer) → OptionGoes Q (finalizerPart finalizer) fun K => finalizerNoting K finalizer
  | none, _, _ => .none
  | some body, hX, hd => .some (goes_body body hX hd)

theorem goes_body : ∀ body : List Stmt, (Q.flat → bodyOneClause body = true) → Q.Covers (bodyIsDynamic body) →
    PartGoes Q (bodyAt body) fun K => bodyNoting K body
  | [], _, _ => fun _ _ _ => Goes.of_lifts (k := 0) Lifts.nil 0
  | s :: ss, hX, hd => by
    rw [bodyIsDynamic, Rules.covers_or] at hd
    simp only [bodyOneClause, Bool.and_eq_true] at hX
    exact fun hu hs hin => (goes_stmt s (fun hx => (hX hx).1) hd.1 hu hs hin).seq
      (goes_body ss (fun hx => (hX hx).2) hd.2 hu hs hin)

theorem goes_cases : ∀ cases : List SwitchCase, (Q.flat → casesOneClause cases = true) → Q.Covers (casesDynamic cases) →
    CasesGo Q (casesAt cases) fun K => casesNoting K cases
  | [], _, _ => .nil
  | ⟨test, body⟩ :: cs, hX, hd => by
    rw [casesDynamic, Rules.covers_or, Rules.covers_or] at hd
    simp only [casesOneClause, Bool.and_eq_true] at hX
    exact .cons hd.1.1 (goes_body body (fun hx => (hX hx).1) hd.1.2) (goes_cases cs (fun hx => (hX hx).2) hd.2)

end

end

theorem lifts_functions (hs : Q.sees c.env C) : ∀ fs : List (String × FunctionTree), Lifts Q C 0 0 (functionsAt c fs)
  | [] => Lifts.nil
  | (name, _) :: fs =>
    (lifts_closure hs _).seq ((lifts_store hs name).seq ((Lifts.op rfl rfl rfl rfl : Lifts Q C 1 0 _).seq
      (lifts_functions hs fs)))

theorem lifts_completion : Lifts Q C 0 1 (match c.completion with
    | some completion => emitWith c .loadLocal (.temporary completion)
    | none => emit c .loadUndefined) := by
  cases c.completion with
  | some t => exact Lifts.op rfl rfl rfl rfl
  | none => exact Lifts.op rfl rfl rfl rfl

/-- **A unit that is laid out from its first instruction on has shapes and keeps to the rules, and what
holds of the spans in it holds of its statements.** -/
theorem entry_shaped (hc : c.regions = []) (hs : Q.sees c.env []) {functions : List (String × FunctionTree)}
    {body : List Stmt} (hX : Q.flat → bodyOneClause body = true) (hd : Q.Covers (bodyIsDynamic body)) {t : Nat}
    {b : Point} (h : entryAt c functions body ⟨0, t⟩ b) :
    ∃ shape, c.unit.Shaped Q.flat b.pc shape ∧
      (∀ p i, p < b.pc → c.unit.instructions[p]? = some i → Q.fits (shape p).opened i) ∧
      ∀ K : Nat → Nat → Prop, (∀ p q, Spans (fun p S => p < b.pc ∧ shape p = S) p q → K p q) →
        entryWith c functions (bodyNoting K body) ⟨0, t⟩ b := by
  obtain ⟨m₁, h₁, ht₁, m₂, h₂, ht₂, m₃, h₃, ht₃, h₄⟩ := h
  have hin : Inside Q (fun _ _ => False) c.regions (fun _ => c.regions) [] := by
    rw [hc]
    exact .nil
  obtain ⟨E, hbody, -, -, -, -, hnoted⟩ := goes_body body hX hd rfl hs hin m₁ m₂ (fun _ h => by cases h) h₂
  obtain ⟨-, shape, hstart, hend, hE, hflows⟩ :=
    (lifts_functions hs functions _ 0 ⟨0, t⟩ m₁ h₁).seq (hbody.seq (lifts_completion _ 0 m₂ m₃ h₃))
  obtain ⟨hret, rfl⟩ := h₄
  have hspan : ∀ p S, E p S → p < m₃.pc + 1 ∧ shape p = S := by
    intro p S hp
    obtain ⟨-, hle, hshape⟩ := hE p S (.inr (.inl hp))
    exact ⟨Nat.lt_succ_of_le hle, hshape⟩
  have hall : ∀ p, p < m₃.pc + 1 → ∃ i, c.unit.instructions[p]? = some i ∧ Q.fits (shape p).opened i ∧
      (shape p).Flows Q.flat (fun q T => q < m₃.pc + 1 ∧ shape q = T) p i := by
    intro p hp
    rcases Nat.lt_succ_iff_lt_or_eq.1 hp with hp | rfl
    · obtain ⟨i, hi, hq, hf⟩ := hflows p (Nat.zero_le p) hp
      refine ⟨i, hi, hq, hf.mono fun q T hq => ?_⟩
      obtain ⟨-, hle, hshape⟩ := hq.resolve_right id
      exact ⟨Nat.lt_succ_of_le hle, hshape⟩
    · refine ⟨_, hret, Q.plain rfl, ?_⟩
      rw [hend]
      exact ⟨Nat.le_refl 1, trivial⟩
  refine ⟨shape, ⟨Nat.succ_pos _, hstart, fun p hp => ?_⟩, fun p i hp hi => ?_, fun K hK =>
    ⟨m₁, h₁, ht₁, m₂, hnoted K ?_, ht₂, m₃, h₃, ht₃, hret, rfl⟩⟩
  · obtain ⟨i, hi, -, hf⟩ := hall p hp
    exact ⟨i, hi, hf⟩
  · obtain ⟨j, hj, hq, -⟩ := hall p hp
    cases hi.symm.trans hj
    exact hq
  · rintro p q ⟨C, hp, hq, hC⟩
    exact hK p q ⟨C, hspan p _ hp, hspan q _ hq, hC⟩

end

end ScriptEngine
