/-
Names seen from lowered code. The scopes of the arena that code can address by
slots form a list of name tables, up to the first scope whose names are looked
up when the code runs. Main statements: resolution in the arena is resolution
in that list (`ScopeArena.Sees.resolve_eq`), and where the records of a running
program match the list, a slot holds the binding that a search by name finds
(`Env.Matches.slotOf`).
-/
import Std.Data.TreeMap.Lemmas
import ScriptEngine.Proofs.Heap.Outline
import ScriptEngine.Proofs.Meaning.World

namespace ScriptEngine

/-! ## Tables -/

namespace BindingTable

def Ok (t : BindingTable) : Prop := ∀ name, t.indexOf? name = t.names.findIdx? (· == name)

theorem ok_empty : empty.Ok := fun name => by simp [indexOf?, names, empty]

theorem names_declare_of_some {t : BindingTable} {name i} (h : t.indexOf? name = some i) (f span) :
    (t.declare name f span).names = t.names := by
  simp only [declare, h]
  cases f with
  | none => rfl
  | some f =>
    refine Array.ext (by simp [names]) fun j h1 h2 => ?_
    simp only [names, Array.getElem_map, Array.getElem_modify]
    split <;> rfl

theorem names_declare_of_none {t : BindingTable} {name} (h : t.indexOf? name = none) (f span) :
    (t.declare name f span).names = t.names.push name := by
  simp [declare, h, names]

theorem names_declare_empty (name f span) : (empty.declare name f span).names = #[name] := by
  rw [names_declare_of_none (by simp [indexOf?, empty])]
  simp [names, empty]

theorem Ok.declare {t : BindingTable} (ht : t.Ok) (name f span) : (t.declare name f span).Ok := by
  intro name'
  cases h : t.indexOf? name with
  | some i =>
    rw [names_declare_of_some h, ← ht name']
    simp only [BindingTable.declare, h]
    cases f <;> rfl
  | none =>
    have hpos : (t.declare name f span).indexOf? name' = (t.positions.insert name t.size)[name']? := by
      rw [BindingTable.declare, h, indexOf?]
    rw [hpos, names_declare_of_none h, Array.findIdx?_push, ← ht name', Std.TreeMap.getElem?_insert]
    by_cases heq : name = name'
    · subst heq
      simp [h, size, names]
    · have hne : (name == name') = false := by simpa using heq
      simp [heq, hne, indexOf?]

end BindingTable

/-! ## Environments -/

/-- The names of the scopes that code addresses by slots, innermost first, up to the first
scope whose names are looked up when the code runs. -/
abbrev Env := List (Array String)

namespace Env

def resolveFrom (name : String) : Env → Nat → Resolution
  | [], _ => .byName
  | names :: outer, depth =>
    match names.findIdx? (· == name) with
    | some index => .slot depth index
    | none => resolveFrom name outer (depth + 1)

def resolve (env : Env) (name : String) : Resolution := env.resolveFrom name 0

theorem lt_of_resolveFrom {name : String} {depth index : Nat} :
    ∀ {env : Env} {start : Nat}, env.resolveFrom name start = .slot depth index → depth < start + env.length
  | [], _, h => by
    rw [resolveFrom] at h
    cases h
  | names :: outer, start, h => by
    rw [resolveFrom] at h
    rw [List.length_cons]
    split at h
    · cases h
      omega
    · have ih := lt_of_resolveFrom h
      omega

theorem lt_of_resolve {env : Env} {name : String} {depth index : Nat} (h : env.resolve name = .slot depth index) :
    depth < env.length := by
  have hlt := lt_of_resolveFrom h
  omega

end Env

namespace ScopeArena

def SeesFrom (a : ScopeArena) : List ScopeRef → Env → Prop
  | [], env => env = []
  | s :: outer, env =>
    s.index < a.scopes.size ∧
      if (a.get s).isOpaque then env = []
      else (a.get s).bindings.Ok ∧ ∃ env', env = (a.get s).bindings.names :: env' ∧ a.SeesFrom outer env'

def Sees (a : ScopeArena) (s : ScopeRef) (env : Env) : Prop := a.SeesFrom (a.chain s) env

theorem SeesFrom.resolve_eq {a : ScopeArena} (name : String) :
    ∀ {chain env}, a.SeesFrom chain env → ∀ depth, a.resolveIn name chain depth = env.resolveFrom name depth
  | [], env, h, depth => by
    rw [SeesFrom] at h
    rw [h]
    rfl
  | s :: outer, env, h, depth => by
    obtain ⟨-, h⟩ := h
    rw [resolveIn]
    split at h
    next hop => rw [if_pos hop, h, Env.resolveFrom]
    next hop =>
      obtain ⟨hok, env', rfl, h⟩ := h
      have ih := h.resolve_eq name (depth + 1)
      rw [if_neg hop, Env.resolveFrom, indexOf?, hok name]
      cases (a.get s).bindings.names.findIdx? (· == name) with
      | none => exact ih
      | some i => rfl

/-- **Resolution in the arena is resolution in the environment that is seen.** -/
theorem Sees.resolve_eq {a : ScopeArena} {s env} (h : a.Sees s env) (name : String) :
    a.resolve s name = env.resolve name := SeesFrom.resolve_eq name h 0

theorem Sees.lt {a : ScopeArena} {s env} (h : a.Sees s env) : s.index < a.scopes.size := h.1

/-- The later arena has all scopes of the earlier one. -/
structure Extends (a a' : ScopeArena) : Prop where
  size : a.scopes.size ≤ a'.scopes.size
  get : ∀ s : ScopeRef, s.index < a.scopes.size → a'.get s = a.get s

theorem Extends.refl (a : ScopeArena) : a.Extends a := ⟨Nat.le_refl _, fun _ _ => rfl⟩

theorem Extends.trans {a b c : ScopeArena} (h : a.Extends b) (h' : b.Extends c) : a.Extends c :=
  ⟨Nat.le_trans h.size h'.size, fun s hs => (h'.get s (Nat.lt_of_lt_of_le hs h.size)).trans (h.get s hs)⟩

theorem SeesFrom.mono {a a' : ScopeArena} (ha : a.Extends a') :
    ∀ {chain env}, a.SeesFrom chain env → a'.SeesFrom chain env
  | [], _, h => h
  | s :: outer, env, h => by
    obtain ⟨hs, h⟩ := h
    refine ⟨Nat.lt_of_lt_of_le hs ha.size, ?_⟩
    rw [ha.get s hs]
    split at h
    next hop => rw [if_pos hop, h]
    next hop =>
      obtain ⟨hok, env', rfl, h⟩ := h
      rw [if_neg hop]
      exact ⟨hok, env', rfl, h.mono ha⟩

theorem Sees.mono {a a' : ScopeArena} (ha : a.Extends a') {s env} (h : a.Sees s env) : a'.Sees s env := by
  have := SeesFrom.mono ha h
  rwa [chain, ← ha.get s h.lt] at this

/-! ### Growing arenas -/

theorem get_push_self (a : ScopeArena) (parent kind wanted) :
    (a.push parent kind wanted).2.get (a.push parent kind wanted).1 =
      ⟨(parent.map a.chain).getD [], kind, kind.storage wanted, .empty⟩ := by
  simp [push, get]

theorem extends_push (a : ScopeArena) (parent kind wanted) : a.Extends (a.push parent kind wanted).2 := by
  refine ⟨by simp [push], fun s hs => ?_⟩
  simp [push, get, Array.getElem?_push_lt hs, Array.getElem?_eq_getElem hs]

theorem size_declareIn (a : ScopeArena) (s name f span) :
    (a.declareIn s name f span).2.scopes.size = a.scopes.size := by simp [declareIn]

theorem get_declareIn_self (a : ScopeArena) {s : ScopeRef} (hs : s.index < a.scopes.size) (name f span) :
    (a.declareIn s name f span).2.get s =
      { a.get s with bindings := (a.get s).bindings.declare name f span } := by
  simp [declareIn, get, Array.getElem?_modify, Array.getElem?_eq_getElem hs]

theorem get_declareIn_ne (a : ScopeArena) {s s' : ScopeRef} (hs : s' ≠ s) (name f span) :
    (a.declareIn s name f span).2.get s' = a.get s' := by
  have hne : s.index ≠ s'.index := fun h => hs (by cases s; cases s'; cases h; rfl)
  simp [declareIn, get, Array.getElem?_modify, hne]

/-- The later arena has one scope among others that the earlier one has not. -/
structure Adds (a : ScopeArena) (s : ScopeRef) (sc : Scope) (b : ScopeArena) : Prop where
  grows : a.Extends b
  fresh : a.scopes.size ≤ s.index
  lt : s.index < b.scopes.size
  get : b.get s = sc

theorem adds_push (a : ScopeArena) (parent kind wanted) :
    a.Adds (a.push parent kind wanted).1 ⟨(parent.map a.chain).getD [], kind, kind.storage wanted, .empty⟩
      (a.push parent kind wanted).2 :=
  ⟨extends_push a parent kind wanted, Nat.le_refl _, by simp [push], get_push_self a parent kind wanted⟩

namespace Adds

variable {a b : ScopeArena} {s : ScopeRef} {sc : Scope}

theorem sees (h : a.Adds s sc b) {parent env} (hp : a.Sees parent env) (ho : sc.outer = a.chain parent)
    (hop : sc.isOpaque = false) (hok : sc.bindings.Ok) : b.Sees s (sc.bindings.names :: env) := by
  rw [Sees, chain, h.get, ho]
  refine ⟨h.lt, ?_⟩
  rw [h.get, if_neg (by simp [hop])]
  exact ⟨hok, env, rfl, SeesFrom.mono h.grows hp⟩

theorem sees_nil (h : a.Adds s sc b) (hop : sc.isOpaque = true) : b.Sees s [] := by
  rw [Sees, chain, h.get]
  refine ⟨h.lt, ?_⟩
  rw [h.get, if_pos hop]

theorem declareIn (h : a.Adds s sc b) (name f span) :
    a.Adds s { sc with bindings := sc.bindings.declare name f span } (b.declareIn s name f span).2 := by
  have hsize := size_declareIn b s name f span
  refine ⟨⟨by rw [hsize]; exact h.grows.size, fun s' hs' => ?_⟩, h.fresh, by rw [hsize]; exact h.lt, ?_⟩
  · have hne : s' ≠ s := fun heq => by
      have := h.fresh
      rw [heq] at hs'
      omega
    rw [get_declareIn_ne b hne, h.grows.get s' hs']
  · rw [get_declareIn_self b h.lt, h.get]

theorem declareCatch {b' : ScopeArena} {i name span} (h : a.Adds s sc b) (hs : sc.bindings = .empty)
    (hd : b.declareCatch s name span = .ok (i, b')) :
    a.Adds s { sc with bindings := BindingTable.empty.declare name none span } b' := by
  have hdecl := h.declareIn name none span
  rw [hs] at hdecl
  unfold ScopeArena.declareCatch at hd
  split at hd
  all_goals
    first
    | (split at hd
       · cases hd
       · cases hd
         exact hdecl)
    | cases hd

theorem foldl_params : ∀ (ps : List Identifier) {b sc}, a.Adds s sc b →
    a.Adds s { sc with bindings := ps.foldl (fun t p => t.declare p.name none p.span) sc.bindings }
      (ps.foldl (fun b p => (b.declareIn s p.name none p.span).2) b)
  | [], _, _, h => h
  | p :: ps, _, _, h => foldl_params ps (h.declareIn p.name none p.span)

theorem declareAll (ds : Array Declaration) (h : a.Adds s sc b) :
    a.Adds s { sc with bindings := (ds.foldl (fun (next, t) d =>
        match d.function with
        | some _ => (next + 1, t.declare d.id.name (some next) d.id.span)
        | none => (next, t.declare d.id.name none d.id.span)) (0, sc.bindings)).2 }
      (Lowering.declareAll s ds b) := by
  simp only [Lowering.declareAll, ← Array.foldl_toList]
  generalize 0 = next
  induction ds.toList generalizing next b sc with
  | nil => exact h
  | cons d ds ih =>
    simp only [List.foldl_cons]
    cases d.function with
    | some _ => exact ih (h.declareIn d.id.name (some next) d.id.span) (next + 1)
    | none => exact ih (h.declareIn d.id.name none d.id.span) next

end Adds

end ScopeArena

theorem entryTable_ok (params : List Identifier) (ds : Array Declaration) : (entryTable params ds).Ok := by
  have hp : ∀ (ps : List Identifier) (t : BindingTable), t.Ok →
      (ps.foldl (fun t p => t.declare p.name none p.span) t).Ok := by
    intro ps
    induction ps with
    | nil => exact fun _ h => h
    | cons p ps ih => exact fun t h => ih _ (h.declare p.name none p.span)
  simp only [entryTable, ← Array.foldl_toList]
  have ht := hp params .empty BindingTable.ok_empty
  generalize params.foldl _ _ = t at ht
  generalize 0 = next
  induction ds.toList generalizing next t with
  | nil => exact ht
  | cons d ds ih =>
    simp only [List.foldl_cons]
    cases d.function with
    | some _ => exact ih _ (ht.declare d.id.name (some next) d.id.span) _
    | none => exact ih _ (ht.declare d.id.name none d.id.span) _

/-! ## Records that match an environment -/

namespace Store

/-- A name's nearest binding on the chain is the slot at an index of the record some links up. -/
structure SlotOf (s : Store) (chain : Chain) (name : String) (depth index : Nat) (r : RecordRef) : Prop where
  /-- The search by name ends at the record. -/
  found : s.find name chain = some (chain.drop depth)
  at_depth : chain[depth]? = some r
  /-- The record is declarative, has the name at the index, and a slot for each name. -/
  declarative : ∃ names slots, s.record r = .declarative names slots ∧
    names.findIdx? (· == name) = some index ∧ slots.size = names.size

namespace SlotOf

variable {s : Store} {chain : Chain} {name : String} {depth index : Nat} {r : RecordRef}

theorem find (h : s.SlotOf chain name depth index r) : ∃ rest, s.find name chain = some (r :: rest) := by
  obtain ⟨hlt, hr⟩ := List.getElem?_eq_some_iff.1 h.at_depth
  refine ⟨chain.drop (depth + 1), ?_⟩
  rw [h.found, List.drop_eq_getElem_cons hlt, hr]

theorem place? (h : s.SlotOf chain name depth index r) : s.place? r name = some (.slot index) := by
  obtain ⟨names, slots, hr, hi, -⟩ := h.declarative
  simp [Store.place?, hr, hi]

theorem slot? (h : s.SlotOf chain name depth index r) : ∃ v, s.slot? r index = some v := by
  obtain ⟨names, slots, hr, hi, hn⟩ := h.declarative
  have hlt : index < slots.size := hn ▸ (Array.findIdx?_eq_some_iff_findIdx_eq.1 hi).1
  exact ⟨slots[index], by simp [Store.slot?, hr, hlt]⟩

theorem lookup (h : s.SlotOf chain name depth index r) :
    s.lookup chain name = (s.slot? r index).map fun v => (v, .undefined) := by
  obtain ⟨rest, hf⟩ := h.find
  obtain ⟨names, slots, hr, -⟩ := h.declarative
  have hreceiver : s.receiver r = .undefined := by rw [receiver, hr]
  simp only [Store.lookup, hf, valueOf?, h.place?, hreceiver]

theorem assign (h : s.SlotOf chain name depth index r) (v : Value) :
    s.assign chain name v = s.setSlot r index v := by
  obtain ⟨rest, hf⟩ := h.find
  simp only [Store.assign, hf, setVariable, h.place?]

theorem setSlot (h : s.SlotOf chain name depth index r) (v : Value) : (s.setSlot r index v).1 = true := by
  obtain ⟨w, hw⟩ := h.slot?
  simp [Store.setSlot, hw]

end SlotOf

theorem deleteBinding_of_slot {s : Store} {name : String} {index : Nat} {r : RecordRef}
    (hp : s.place? r name = some (.slot index)) :
    ∀ {chain rest}, s.find name chain = some (r :: rest) → s.deleteBinding name chain = (false, s)
  | [], _, h => by cases h
  | r' :: outer, rest, h => by
    rw [find] at h
    cases hb : s.place? r' name with
    | none =>
      simp only [binds, hb, Option.isSome_none, Bool.false_eq_true, if_false] at h
      simp only [deleteBinding, deleteVariable, hb]
      exact deleteBinding_of_slot hp h
    | some p =>
      simp only [binds, hb, Option.isSome_some, if_true] at h
      cases h
      rw [hb] at hp
      cases hp
      simp only [deleteBinding, deleteVariable, hb]

theorem SlotOf.deleteBinding {s : Store} {chain : Chain} {name : String} {depth index : Nat} {r : RecordRef}
    (h : s.SlotOf chain name depth index r) : s.deleteBinding name chain = (false, s) := by
  obtain ⟨rest, hf⟩ := h.find
  exact deleteBinding_of_slot h.place? hf

end Store

namespace Env

/-- The records of a chain have the names of an environment. -/
def Matches (s : Store) : Env → Chain → Prop
  | [], _ => True
  | names :: env, chain => ∃ r rest slots, chain = r :: rest ∧ s.record r = .declarative names slots ∧
      slots.size = names.size ∧ Matches s env rest

theorem Matches.keeps {s t : Store} (h : s.KeepsRecords t) :
    ∀ {env chain}, Matches s env chain → Matches t env chain
  | [], _, _ => trivial
  | _ :: _, _, hm => by
    obtain ⟨r, rest, slots, rfl, hr, hn, hm⟩ := hm
    obtain ⟨slots', hr', hn'⟩ := h _ _ _ hr
    exact ⟨r, rest, slots', rfl, hr', hn'.trans hn, hm.keeps h⟩

theorem Matches.slotOf_from {s : Store} {name : String} :
    ∀ {env chain}, Matches s env chain → ∀ {k d i}, env.resolveFrom name k = .slot d i →
      ∃ j r, d = k + j ∧ s.SlotOf chain name j i r
  | [], _, _, _, _, _, h => by cases h
  | names :: env, chain, hm, k, d, i, h => by
    obtain ⟨r, rest, slots, rfl, hr, hn, hm⟩ := hm
    rw [resolveFrom] at h
    cases hi : names.findIdx? (· == name) with
    | some index =>
      rw [hi] at h
      cases h
      have hb : s.binds r name = true := by simp [Store.binds, Store.place?, hr, hi]
      exact ⟨0, r, rfl, by simp [Store.find, hb], rfl, names, slots, hr, hi, hn⟩
    | none =>
      rw [hi] at h
      obtain ⟨j, r', rfl, hs⟩ := hm.slotOf_from h
      have hb : s.binds r name = false := by simp [Store.binds, Store.place?, hr, hi]
      exact ⟨j + 1, r', by omega, by simp [Store.find, hb, hs.found], hs.at_depth, hs.declarative⟩

/-- **A slot that a name resolves to holds the binding that a search for the name finds.** -/
theorem Matches.slotOf {s : Store} {env chain} (hm : Matches s env chain) {name d i}
    (h : env.resolve name = .slot d i) : ∃ r, s.SlotOf chain name d i r := by
  obtain ⟨j, r, hd, hs⟩ := hm.slotOf_from h
  have hj : d = j := by omega
  exact ⟨r, hj ▸ hs⟩

end Env

end ScriptEngine
