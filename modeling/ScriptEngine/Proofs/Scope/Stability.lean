/-
Scopes are stable. Whatever is done to an arena, the scopes that are there keep
their parent, kind and storage, and a variable keeps its index, so that a slot that
was once resolved denotes the same variable ever after. Every operation is one of a few
changes (`ScopeArena.Change`), and what they keep is proved of each of them.
Main statement: `ScopeArena.scopes_stable`.
-/
import ScriptEngine.Proofs.Scope.Declarations

namespace ScriptEngine

theorem BindingTable.names_prefix (t : BindingTable) (name : String) (f : Option Nat) (span : Span) :
    t.names.toList <+: (t.declare name f span).names.toList := by
  cases h : t.indexOf? name with
  | some i => exact names_declare_of_some h f span ▸ List.prefix_refl _
  | none =>
    rw [names_declare_of_none h, Array.toList_push]
    exact List.prefix_append _ _

theorem BindingTable.Tidy.indexOf?_slotFor {t : BindingTable} (h : t.Tidy) (name : String) (f : Option Nat) (span : Span) :
    (t.declare name f span).indexOf? name = some (t.slotFor name) := by
  rw [(h.declare name f span).indexOf?_eq_some, slotFor]
  cases hi : t.indexOf? name with
  | some i => rw [names_declare_of_some hi]; exact h.indexOf?_eq_some.1 hi
  | none =>
    have hsize : t.size = t.names.size := by simp [names, size]
    rw [names_declare_of_none hi, Option.getD_none, hsize, Array.getElem?_push_size]

/-- The scope of a catch clause or of a function's own name. -/
def ScopeKind.isSingle (k : ScopeKind) : Prop := k = .catchClause ∨ k = .callee

namespace ScopeArena

variable {a b c : ScopeArena} {s o : ScopeRef}

def up (a : ScopeArena) : Nat → ScopeRef → Option ScopeRef
  | 0, s => some s
  | n + 1, s => (a.get s).parent.bind (a.up n)

inductive Op
  | push (parent : Option ScopeRef) (kind : ScopeKind) (wanted : Storage)
  | declare (s : ScopeRef) (name : String) (initializer : Option Nat) (span : Span)
  | declareCatch (s : ScopeRef) (name : String) (span : Span)

namespace Op

/-- An operation that fails leaves the arena as it is. -/
def apply (a : ScopeArena) : Op → ScopeArena
  | .push parent kind wanted => (a.push parent kind wanted).2
  | .declare s name f span => ((a.declare s name f span).toOption.map fun p => p.2.2).getD a
  | .declareCatch s name span => ((a.declareCatch s name span).toOption.map Prod.snd).getD a

def Within (a : ScopeArena) : Op → Prop
  | .push parent _ _ => ∀ p, parent = some p → p.index < a.scopes.size
  | .declare s .. | .declareCatch s .. => s.index < a.scopes.size

end Op

/-- Operations lead from one arena to another; the last one comes first. -/
inductive Grows (a : ScopeArena) : List Op → ScopeArena → Prop
  | refl : Grows a [] a
  | step {ops : List Op} {b : ScopeArena} {op : Op} : Grows a ops b → op.Within b → Grows a (op :: ops) (op.apply b)

/-! ## What an operation does -/

/-- A scope that takes declarations gets one, or a scope for one variable gets it. -/
inductive Change (a : ScopeArena) : Op → ScopeArena → Prop
  | nothing {op : Op} : Change a op a
  | push {parent : Option ScopeRef} (kind : ScopeKind) (wanted : Storage) :
      (∀ p, parent = some p → p.index < a.scopes.size) → Change a (.push parent kind wanted) (a.push parent kind wanted).2
  | declare {o : ScopeRef} (s : ScopeRef) (name : String) (f : Option Nat) (span : Span) :
      (a.get o).kind.delegates = false → Change a (.declare s name f span) (a.declareIn o name f span).2
  | single {s : ScopeRef} (name : String) (span : Span) : (a.get s).bindings.size = 0 →
      Change a (.declareCatch s name span) (a.declareIn s name none span).2

theorem owner_eq_ok (h : a.owner s = .ok o) : ∃ n, (a.chain s)[n]? = some o ∧ (a.get o).kind.delegates = false ∧
    ∀ (k : Nat) (t : ScopeRef), k < n → (a.chain s)[k]? = some t → (a.get t).kind.delegates = true := by
  unfold owner at h
  split at h
  next r hr =>
    cases h
    obtain ⟨htakes, n, hn, hat, hbefore⟩ := List.find?_eq_some_iff_getElem.1 hr
    refine ⟨n, List.getElem?_eq_some_iff.2 ⟨hn, hat⟩, by simpa using htakes, fun k t hk ht => ?_⟩
    obtain ⟨hlt, rfl⟩ := List.getElem?_eq_some_iff.1 ht
    simpa using hbefore k hk
  · cases h

theorem owner_eq_error {e : Fault} (h : a.owner s = .error e) :
    e = .internal .scopeWithoutParent ∧ ∀ t ∈ a.chain s, (a.get t).kind.delegates = true := by
  unfold owner at h
  split at h
  · cases h
  next hr =>
    cases h
    exact ⟨rfl, fun t ht => by simpa using List.find?_eq_none.1 hr t ht⟩

section

variable (hk : (a.get s).kind.isSingle) (name : String) (span : Span)
include hk

theorem declareCatch_first (hfirst : (a.get s).bindings.entries[0]? = none) :
    a.declareCatch s name span = .ok (a.declareIn s name none span) := by
  unfold declareCatch
  obtain hk | hk := hk <;> simp only [hk, hfirst]

theorem declareCatch_second {first : Variable} (hfirst : (a.get s).bindings.entries[0]? = some first) :
    a.declareCatch s name span = .error (.source (.secondCatchVariable first.name name)) := by
  unfold declareCatch
  obtain hk | hk := hk <;> simp only [hk, hfirst]

theorem second_refused (h₁ : (a.get s).bindings.size = 1) :
    (∃ first, a.declareCatch s name span = .error (.source (.secondCatchVariable first name))) ∧
      (Op.declareCatch s name span).apply a = a := by
  have hfirst := declareCatch_second hk name span (Array.getElem?_eq_getElem (Nat.lt_of_lt_of_eq Nat.zero_lt_one h₁.symm))
  exact ⟨⟨_, hfirst⟩, by rw [Op.apply, hfirst]; rfl⟩

end

theorem declareCatch_other (hk : ¬ (a.get s).kind.isSingle) (name : String) (span : Span) :
    a.declareCatch s name span = .error (.internal .catchVariableOutside) := by
  unfold declareCatch
  split
  next h => exact absurd (.inl h) hk
  next h => exact absurd (.inr h) hk
  · rfl

theorem change_apply {op : Op} (h : op.Within a) : Change a op (op.apply a) := by
  cases op with
  | push parent kind wanted => exact .push kind wanted h
  | declare s name f span =>
    simp only [Op.apply, declare]
    cases ho : a.owner s with
    | error e => exact .nothing
    | ok o =>
      obtain ⟨n, -, htakes, -⟩ := owner_eq_ok ho
      exact .declare s name f span htakes
  | declareCatch s name span =>
    simp only [Op.apply]
    by_cases hk : (a.get s).kind.isSingle
    · cases hfirst : (a.get s).bindings.entries[0]? with
      | some first =>
        rw [declareCatch_second hk name span hfirst]
        exact .nothing
      | none =>
        rw [declareCatch_first hk name span hfirst]
        exact .single name span (Nat.le_zero.1 (Array.getElem?_eq_none_iff.1 hfirst))
    · rw [declareCatch_other hk]
      exact .nothing

/-! ## What stays -/

theorem get_declareIn (a : ScopeArena) (o : ScopeRef) (name : String) (f : Option Nat) (span : Span) (s : ScopeRef) :
    (a.declareIn o name f span).2.get s = if s = o ∧ s.index < a.scopes.size then
      { a.get s with bindings := (a.get s).bindings.declare name f span } else a.get s := by
  split
  next h =>
    obtain ⟨rfl, hs⟩ := h
    exact get_declareIn_self a hs name f span
  next h =>
    by_cases hso : s = o
    · have hs : a.scopes.size ≤ s.index := Nat.le_of_not_lt fun hs => h ⟨hso, hs⟩
      simp [declareIn, get, Array.getElem?_eq_none_iff.2 hs, Array.getElem?_modify]
    · exact get_declareIn_ne a hso name f span

/-- The scopes of the first arena are in the second one, with the same variables in front. -/
structure Keeps (a b : ScopeArena) : Prop where
  size : a.scopes.size ≤ b.scopes.size
  same : ∀ s : ScopeRef, s.index < a.scopes.size →
    (b.get s).outer = (a.get s).outer ∧ (b.get s).kind = (a.get s).kind ∧ (b.get s).storage = (a.get s).storage
  names : ∀ s : ScopeRef, s.index < a.scopes.size → (a.get s).bindings.names.toList <+: (b.get s).bindings.names.toList

theorem Keeps.refl (a : ScopeArena) : a.Keeps a := ⟨Nat.le_refl _, fun _ _ => ⟨rfl, rfl, rfl⟩, fun _ _ => List.prefix_refl _⟩

theorem Keeps.trans (h : a.Keeps b) (h' : b.Keeps c) : a.Keeps c := by
  refine ⟨Nat.le_trans h.size h'.size, fun s hs => ?_, fun s hs => ?_⟩
  · obtain ⟨ho, hk, hst⟩ := h.same s hs
    obtain ⟨ho', hk', hst'⟩ := h'.same s (Nat.lt_of_lt_of_le hs h.size)
    exact ⟨ho'.trans ho, hk'.trans hk, hst'.trans hst⟩
  · exact (h.names s hs).trans (h'.names s (Nat.lt_of_lt_of_le hs h.size))

theorem keeps_declareIn (a : ScopeArena) (o : ScopeRef) (name : String) (f : Option Nat) (span : Span) :
    a.Keeps (a.declareIn o name f span).2 := by
  refine ⟨Nat.le_of_eq (size_declareIn a o name f span).symm, fun s hs => ?_, fun s hs => ?_⟩ <;> rw [get_declareIn] <;> split
  · exact ⟨rfl, rfl, rfl⟩
  · exact ⟨rfl, rfl, rfl⟩
  · exact BindingTable.names_prefix _ name f span
  · exact List.prefix_refl _

theorem Change.keeps {op : Op} (h : Change a op b) : a.Keeps b := by
  cases h with
  | nothing => exact .refl a
  | push kind wanted hp =>
    have hext := a.extends_push
    exact ⟨(hext _ kind wanted).size, fun s hs => by simp [(hext _ kind wanted).get s hs],
      fun s hs => (hext _ kind wanted).get s hs ▸ List.prefix_refl _⟩
  | declare s name f span => exact keeps_declareIn a _ name f span
  | single name span => exact keeps_declareIn a _ name none span

theorem Grows.keeps {ops : List Op} (h : a.Grows ops b) : a.Keeps b := by
  induction h with
  | refl => exact .refl a
  | step _ hop ih => exact ih.trans (change_apply hop).keeps

/-! ## What holds -/

/-- What operations make of an arena: tables have each name once, scopes are linked to scopes that are there, and a
scope for one variable has no other than it was given. -/
structure Coherent (a : ScopeArena) (ops : List Op) : Prop where
  tidy : ∀ s : ScopeRef, s.index < a.scopes.size → (a.get s).bindings.Tidy
  linked : ∀ s : ScopeRef, s.index < a.scopes.size → (a.get s).outer = ((a.get s).parent.map a.chain).getD []
  within : ∀ s : ScopeRef, s.index < a.scopes.size → ∀ t ∈ (a.get s).outer, t.index < a.scopes.size
  single : ∀ s : ScopeRef, s.index < a.scopes.size → (a.get s).kind.isSingle → (a.get s).bindings.size ≤ 1 ∧
    ∀ v ∈ (a.get s).bindings.entries, Op.declareCatch s v.name v.span ∈ ops

theorem coherent_empty : Coherent empty [] := by
  constructor <;> exact fun s hs => absurd hs (Nat.not_lt_zero s.index)

theorem Coherent.parent_lt {ops : List Op} (h : a.Coherent ops) (hs : s.index < a.scopes.size) {p : ScopeRef}
    (hp : (a.get s).parent = some p) : p.index < a.scopes.size := h.within s hs p (List.mem_of_mem_head? hp)

theorem Coherent.push {ops : List Op} (h : a.Coherent ops) {parent : Option ScopeRef} (kind : ScopeKind) (wanted : Storage)
    (hp : ∀ p, parent = some p → p.index < a.scopes.size) (op : Op) :
    (a.push parent kind wanted).2.Coherent (op :: ops) := by
  have hext := a.extends_push parent kind wanted
  have hnew := a.get_push_self parent kind wanted
  have hmap : ∀ q : Option ScopeRef, (∀ p, q = some p → p.index < a.scopes.size) →
      (q.map a.chain).getD [] = (q.map (a.push parent kind wanted).2.chain).getD [] := by
    rintro (- | p) hq
    · rfl
    · simp [chain, hext.get p (hq p rfl)]
  have hcases : ∀ s : ScopeRef, s.index < (a.push parent kind wanted).2.scopes.size →
      s.index < a.scopes.size ∨ s = (a.push parent kind wanted).1 := by
    rintro ⟨i⟩ hs
    have hs : i < a.scopes.size + 1 := by simpa [ScopeArena.push] using hs
    exact (Nat.lt_or_eq_of_le (Nat.le_of_lt_succ hs)).imp_right fun hi => congrArg ScopeRef.mk hi
  refine ⟨fun s hs => ?_, fun s hs => ?_, fun s hs => ?_, fun s hs => ?_⟩ <;> obtain hs | rfl := hcases s hs
  · exact hext.get s hs ▸ h.tidy s hs
  · exact hnew ▸ .empty
  · rw [hext.get s hs]
    exact (h.linked s hs).trans (hmap _ fun p hp => h.parent_lt hs hp)
  · rw [hnew]
    cases parent with
    | none => rfl
    | some p => exact hmap (some p) hp
  · rw [hext.get s hs]
    exact fun t ht => Nat.lt_of_lt_of_le (h.within s hs t ht) hext.size
  · rw [hnew]
    cases parent with
    | none => exact fun t ht => absurd ht List.not_mem_nil
    | some p =>
      intro t ht
      obtain heq | ht := List.mem_cons.1 ht
      · rw [heq]
        exact Nat.lt_of_lt_of_le (hp p rfl) hext.size
      · exact Nat.lt_of_lt_of_le (h.within p (hp p rfl) t ht) hext.size
  · rw [hext.get s hs]
    exact fun hk => ⟨(h.single s hs hk).1, fun v hv => .tail _ ((h.single s hs hk).2 v hv)⟩
  · rw [hnew]
    exact fun _ => ⟨Nat.zero_le _, fun v hv => absurd hv (Array.not_mem_empty v)⟩

section

variable (a : ScopeArena) (o : ScopeRef) (name : String) (f : Option Nat) (span : Span) (s : ScopeRef)

theorem outer_declareIn : ((a.declareIn o name f span).2.get s).outer = (a.get s).outer := by
  rw [get_declareIn]
  split <;> rfl

theorem chain_declareIn : (a.declareIn o name f span).2.chain s = a.chain s := by
  rw [chain, chain, outer_declareIn]

end

theorem Coherent.declareIn {ops : List Op} (h : a.Coherent ops) {o : ScopeRef} {name : String} {f : Option Nat} {span : Span}
    {op : Op} (hsingle : (a.get o).kind.isSingle →
      (a.get o).bindings.size = 0 ∧ op = .declareCatch o name span) :
    (a.declareIn o name f span).2.Coherent (op :: ops) := by
  have hsize := size_declareIn a o name f span
  refine ⟨fun s hs => ?_, fun s hs => ?_, fun s hs => ?_, fun s hs => ?_⟩ <;> rw [hsize] at hs
  · rw [get_declareIn]
    split
    · exact (h.tidy s hs).declare name f span
    · exact h.tidy s hs
  · rw [Scope.parent, outer_declareIn, funext (chain_declareIn a o name f span)]
    exact h.linked s hs
  · rw [outer_declareIn, hsize]
    exact h.within s hs
  · rw [get_declareIn]
    split
    next hso =>
      obtain ⟨rfl, -⟩ := hso
      intro hk
      obtain ⟨hzero, rfl⟩ := hsingle hk
      have hentries : (a.get s).bindings.entries = #[] := Array.size_eq_zero_iff.1 hzero
      have hnone : (a.get s).bindings.indexOf? name = none := Option.eq_none_iff_forall_ne_some.2 fun i hi =>
        absurd ((h.tidy s hs).lt_of_indexOf? hi) (hentries ▸ Nat.not_lt_zero i)
      simp [BindingTable.declare, hnone, BindingTable.size, hentries]
    · exact fun hk => ⟨(h.single s hs hk).1, fun v hv => .tail _ ((h.single s hs hk).2 v hv)⟩

theorem Coherent.change {ops : List Op} {op : Op} (h : a.Coherent ops) (hc : Change a op b) : b.Coherent (op :: ops) := by
  cases hc with
  | nothing => exact ⟨h.tidy, h.linked, h.within, fun s hs hk => ⟨(h.single s hs hk).1, fun v hv => .tail _ ((h.single s hs hk).2 v hv)⟩⟩
  | push kind wanted hp => exact h.push kind wanted hp _
  | declare s name f span hd =>
    refine h.declareIn fun hk => ?_
    obtain hk | hk := hk <;> rw [hk] at hd <;> cases hd
  | single name span hsize => exact h.declareIn fun _ => ⟨hsize, rfl⟩

theorem Grows.coherent {ops : List Op} (h : empty.Grows ops a) : a.Coherent ops := by
  induction h with
  | refl => exact coherent_empty
  | step _ hop ih => exact ih.change (change_apply hop)

/-! ## Slots -/

theorem Coherent.getElem?_chain {ops : List Op} (h : a.Coherent ops) : ∀ (n : Nat) {s : ScopeRef},
    s.index < a.scopes.size → (a.chain s)[n]? = a.up n s
  | 0, s, _ => rfl
  | n + 1, s, hs => by
    rw [chain, List.getElem?_cons_succ, h.linked s hs, up]
    cases hp : (a.get s).parent with
    | none => rfl
    | some p => exact h.getElem?_chain n (h.parent_lt hs hp)

theorem resolveIn_eq_slot {name : String} {depth index : Nat} : ∀ {chain : List ScopeRef} {d : Nat},
    a.resolveIn name chain d = .slot depth index → ∃ (n : Nat) (t : ScopeRef), depth = d + n ∧ chain[n]? = some t ∧
      (a.get t).isOpaque = false ∧ a.indexOf? t name = some index
  | s :: outer, d, h => by
    rw [resolveIn] at h
    split at h
    · cases h
    next hop =>
      split at h
      next i hi =>
        cases h
        exact ⟨0, s, rfl, rfl, by simpa using hop, hi⟩
      next =>
        obtain ⟨n, t, rfl, ht, hstatic, hi⟩ := resolveIn_eq_slot h
        exact ⟨n + 1, t, by omega, ht, hstatic, hi⟩

theorem lt_of_static (h : (a.get s).isOpaque = false) : s.index < a.scopes.size := by
  refine Nat.lt_of_not_le fun hle => ?_
  have hget : a.get s = default := by simp [get, Array.getElem?_eq_none_iff.2 hle]
  rw [hget] at h
  cases h

/-- The nearest scope that takes declarations, so many parents up. -/
structure Owns (a : ScopeArena) (s o : ScopeRef) (n : Nat) : Prop where
  at_up : a.up n s = some o
  takes : (a.get o).kind.delegates = false
  nearest : ∀ (k : Nat) (t : ScopeRef), k < n → a.up k s = some t → (a.get t).kind.delegates = true

theorem Grows.trans {ops more : List Op} (h : a.Grows ops b) (h' : b.Grows more c) : a.Grows (more ++ ops) c := by
  induction h' with
  | refl => exact h
  | step _ hop ih => exact ih.step hop

section

variable {ops : List Op} (h : a.Coherent ops) (hs : s.index < a.scopes.size)
include h hs

theorem Coherent.indexOf?_eq_some {name : String} {i : Nat} :
    a.indexOf? s name = some i ↔ (a.get s).bindings.names[i]? = some name := (h.tidy s hs).indexOf?_eq_some

theorem Coherent.indexOf?_of_keeps {more : List Op} (h' : b.Coherent more) (hk : a.Keeps b) {name : String} {i : Nat}
    (hi : a.indexOf? s name = some i) : b.indexOf? s name = some i := by
  rw [h.indexOf?_eq_some hs, ← Array.getElem?_toList] at hi
  rw [h'.indexOf?_eq_some (Nat.lt_of_lt_of_le hs hk.size), ← Array.getElem?_toList]
  obtain ⟨rest, hrest⟩ := hk.names s hs
  rw [← hrest, List.getElem?_append_left (List.getElem?_eq_some_iff.1 hi).1, hi]

theorem Coherent.slot {more : List Op} (h' : b.Coherent more) (hk : a.Keeps b) {name : String} {depth index : Nat}
    (hr : a.resolve s name = .slot depth index) : ∃ t, b.up depth s = some t ∧ (b.get t).storage = .static ∧
      (b.get t).bindings.names[index]? = some name := by
  obtain ⟨n, t, rfl, ht, hstatic, hi⟩ := resolveIn_eq_slot hr
  have hlt := lt_of_static hstatic
  refine ⟨t, ?_, ?_, ?_⟩
  · rw [Nat.zero_add, ← h'.getElem?_chain n (Nat.lt_of_lt_of_le hs hk.size), chain, (hk.same s hs).1]
    exact ht
  · rw [(hk.same t hlt).2.2]
    cases hst : (a.get t).storage with
    | static => rfl
    | dynamic => simp [Scope.isOpaque, hst] at hstatic
  · exact (h'.indexOf?_eq_some (Nat.lt_of_lt_of_le hlt hk.size)).1 (h.indexOf?_of_keeps hlt h' hk hi)

theorem Coherent.declares (name : String) (f : Option Nat) (span : Span) :
    (∃ o n i b, a.declare s name f span = .ok (o, i, b) ∧ a.Owns s o n ∧ b.indexOf? o name = some i ∧
      ∀ t ≠ o, b.get t = a.get t) ∨
    a.declare s name f span = .error (.internal .scopeWithoutParent) ∧
      ∀ (n : Nat) (t : ScopeRef), a.up n s = some t → (a.get t).kind.delegates = true := by
  cases ho : a.owner s with
  | error e =>
    obtain ⟨rfl, hall⟩ := owner_eq_error ho
    refine .inr ⟨by simp only [declare, ho]; rfl, fun n t ht => hall t ?_⟩
    rw [← h.getElem?_chain n hs] at ht
    exact List.mem_of_getElem? ht
  | ok o =>
    obtain ⟨n, hat, htakes, hnearest⟩ := owner_eq_ok ho
    have howns : a.Owns s o n := by
      refine ⟨h.getElem?_chain n hs ▸ hat, htakes, fun k t hk ht => hnearest k t hk ?_⟩
      rwa [h.getElem?_chain k hs]
    have hlt : o.index < a.scopes.size := by
      obtain heq | hmem := List.mem_cons.1 (List.mem_of_getElem? hat)
      · rwa [heq]
      · exact h.within s hs o hmem
    refine .inl ⟨o, n, _, _, by simp only [declare, ho]; rfl, howns, ?_, fun t ht => get_declareIn_ne a ht name f span⟩
    rw [indexOf?, get_declareIn_self a hlt]
    exact (h.tidy o hlt).indexOf?_slotFor name f span

end

/-- **Scopes are stable.** In every scope that operations made, each name has its own index, and the indices are those of
the variables. Whatever is done afterwards, the scope keeps its parent, kind and storage and its variables their
indices, so a slot that was resolved goes on to denote a variable with the name in a static scope. Declarations change
nothing but the nearest scope that takes them. A scope for one variable has no other than it was given, and
another one is refused without any change. -/
theorem scopes_stable {ops more : List Op} {a b : ScopeArena} (ha : empty.Grows ops a) (hb : a.Grows more b) {s : ScopeRef}
    (hs : s.index < a.scopes.size) :
    (a.get s).bindings.names.toList.Nodup ∧
    (∀ name i, a.indexOf? s name = some i ↔ (a.get s).bindings.names[i]? = some name) ∧
    (∀ i, (∃ name, a.indexOf? s name = some i) ↔ i < (a.get s).bindings.size) ∧
    ((b.get s).parent = (a.get s).parent ∧ (b.get s).kind = (a.get s).kind ∧ (b.get s).storage = (a.get s).storage) ∧
    (∀ name i, a.indexOf? s name = some i →
      b.indexOf? s name = some i ∧ ∀ name', b.indexOf? s name' = some i → name' = name) ∧
    (∀ name depth index, a.resolve s name = .slot depth index → ∃ t, b.up depth s = some t ∧
      (b.get t).storage = .static ∧ (b.get t).bindings.names[index]? = some name) ∧
    (∀ name f span, (∃ o n i c, a.declare s name f span = .ok (o, i, c) ∧ a.Owns s o n ∧ c.indexOf? o name = some i ∧
        ∀ t ≠ o, c.get t = a.get t) ∨
      a.declare s name f span = .error (.internal .scopeWithoutParent) ∧
        ∀ (n : Nat) (t : ScopeRef), a.up n s = some t → (a.get t).kind.delegates = true) ∧
    ((a.get s).kind.isSingle → (a.get s).bindings.size ≤ 1 ∧
      (∀ v ∈ (a.get s).bindings.entries, Op.declareCatch s v.name v.span ∈ ops) ∧
      ∀ name span, (a.get s).bindings.size = 1 →
        (∃ first, a.declareCatch s name span = .error (.source (.secondCatchVariable first name))) ∧
          (Op.declareCatch s name span).apply a = a) := by
  have h := ha.coherent
  have h' := (ha.trans hb).coherent
  have hs' := Nat.lt_of_lt_of_le hs hb.keeps.size
  obtain ⟨houter, hkind, hstorage⟩ := hb.keeps.same s hs
  refine ⟨(h.tidy s hs).nodup, fun name i => h.indexOf?_eq_some hs, fun i => ⟨fun hi => ?_, fun hi => ?_⟩,
    ⟨congrArg List.head? houter, hkind, hstorage⟩, fun name i hi => ?_, fun name depth index => h.slot hs h' hb.keeps,
    h.declares hs, fun hk => ⟨(h.single s hs hk).1, (h.single s hs hk).2, second_refused hk⟩⟩
  · obtain ⟨name, hi⟩ := hi
    exact (h.tidy s hs).lt_of_indexOf? hi
  · exact ⟨_, (h.indexOf?_eq_some hs).2 (Array.getElem?_eq_getElem (by simpa [BindingTable.names, BindingTable.size] using hi))⟩
  · have hi' := h.indexOf?_of_keeps hs h' hb.keeps hi
    refine ⟨hi', fun name' hname' => ?_⟩
    rw [h'.indexOf?_eq_some hs'] at hi' hname'
    exact Option.some.inj (hname'.symm.trans hi')

/-- A variable that is declared in a catch clause belongs to the function around it, also when the function gets
another one. -/
theorem scopes_stable_catch : ∃ a b : ScopeArena,
    empty.Grows [.declare ⟨1⟩ "x" none ⟨0, 0⟩, .declareCatch ⟨1⟩ "e" ⟨0, 0⟩, .push (some ⟨0⟩) .catchClause .static,
      .push none .function .static] a ∧ a.Grows [.declare ⟨0⟩ "y" none ⟨0, 0⟩] b ∧ a.resolve ⟨1⟩ "x" = .slot 1 0 ∧
    ∃ t, b.up 1 ⟨1⟩ = some t ∧ (b.get t).storage = .static ∧ (b.get t).bindings.names[0]? = some "x" := by
  obtain ⟨a, ha, hsize, hr⟩ : ∃ a, empty.Grows [.declare ⟨1⟩ "x" none ⟨0, 0⟩, .declareCatch ⟨1⟩ "e" ⟨0, 0⟩,
      .push (some ⟨0⟩) .catchClause .static, .push none .function .static] a ∧ a.scopes.size = 2 ∧
      a.resolve ⟨1⟩ "x" = .slot 1 0 := by
    refine ⟨_, .step (.step (.step (.step .refl fun p hp => ?_) fun p hp => ?_) ?_) ?_, rfl, by decide +kernel⟩
    · cases hp
    · cases hp
      exact Nat.zero_lt_one
    · exact Nat.one_lt_two
    · exact Nat.one_lt_two
  have hb : a.Grows [.declare ⟨0⟩ "y" none ⟨0, 0⟩] _ := .step .refl (hsize ▸ Nat.two_pos : 0 < a.scopes.size)
  have hs : 1 < a.scopes.size := hsize ▸ Nat.one_lt_two
  exact ⟨a, _, ha, hb, hr, (scopes_stable ha hb (s := ⟨1⟩) hs).2.2.2.2.2.1 "x" 1 0 hr⟩

end ScopeArena

end ScriptEngine
