/-
The names that a unit declares. However often a name is declared it is one
variable, and of several functions with the name the last one fills it. Main
statements: `names_entryTable` and `initialFunctions_entryTable`.
-/
import Mathlib.Data.List.Basic
import Mathlib.Data.List.Induction
import ScriptEngine.Proofs.Scope.Environment

namespace ScriptEngine

def lastFunction (ds : List Declaration) (name : String) : Option FunctionTree :=
  ds.reverse.findSome? fun d => if d.id.name = name then d.function else none

theorem lastFunction_concat (ds : List Declaration) (d : Declaration) (name : String) :
    lastFunction (ds ++ [d]) name = if d.id.name = name then d.function.or (lastFunction ds name) else lastFunction ds name := by
  simp only [lastFunction, List.reverse_append, List.reverse_singleton, List.singleton_append, List.findSome?_cons]
  by_cases h : d.id.name = name
  · simp only [h, if_true]
    cases d.function <;> rfl
  · simp only [h, if_false]

theorem exists_of_lastFunction {ds : List Declaration} {name : String} {f : FunctionTree} (h : lastFunction ds name = some f) :
    ∃ d ∈ ds, d.id.name = name := by
  obtain ⟨d, hd, hf⟩ := List.exists_of_findSome?_eq_some h
  by_cases heq : d.id.name = name
  · exact ⟨d, List.mem_reverse.1 hd, heq⟩
  · rw [if_neg heq] at hf
    cases hf

namespace BindingTable

/-- The number of the function that fills a name on entry. -/
def initial? (t : BindingTable) (name : String) : Option Nat :=
  (t.indexOf? name).bind fun i => t.entries[i]?.bind Variable.initializer

structure Tidy (t : BindingTable) : Prop where
  ok : t.Ok
  nodup : t.names.toList.Nodup

namespace Tidy

variable {t : BindingTable}

theorem empty : BindingTable.empty.Tidy := ⟨ok_empty, by simp [names, BindingTable.empty]⟩

theorem indexOf?_eq_some (h : t.Tidy) {name : String} {i : Nat} :
    t.indexOf? name = some i ↔ t.names[i]? = some name := by
  rw [h.ok name, Array.findIdx?_eq_some_iff_getElem]
  constructor
  · rintro ⟨hi, heq, -⟩
    rw [Array.getElem?_eq_getElem hi, beq_iff_eq.1 heq]
  · intro hi
    obtain ⟨hlt, heq⟩ := Array.getElem?_eq_some_iff.1 hi
    refine ⟨hlt, beq_iff_eq.2 heq, fun j hj hname => ?_⟩
    have hsame : t.names.toList[j]? = t.names.toList[i]? := by
      rw [Array.getElem?_toList, Array.getElem?_toList, hi, Array.getElem?_eq_getElem (Nat.lt_trans hj hlt),
        beq_iff_eq.1 hname]
    exact absurd ((List.getElem?_inj (Nat.lt_trans hj hlt) h.nodup).1 hsame) (Nat.ne_of_lt hj)

theorem indexOf?_eq_none (h : t.Tidy) {name : String} : t.indexOf? name = none ↔ name ∉ t.names := by
  rw [h.ok name, Array.findIdx?_eq_none_iff]
  exact ⟨fun hall hmem => by simpa using hall name hmem, fun hn x hx => by simpa using fun he : x = name => hn (he ▸ hx)⟩

theorem names_declare (h : t.Tidy) {names : List String} (hnames : t.names.toList = names.eraseDups) (name : String)
    (f : Option Nat) (span : Span) : (t.declare name f span).names.toList = (names ++ [name]).eraseDups := by
  rw [List.eraseDups_append, ← hnames]
  cases hi : t.indexOf? name with
  | some i =>
    have hmem : name ∈ names := by
      rw [← List.mem_eraseDups, ← hnames, Array.mem_toList_iff]
      exact Array.mem_of_getElem? (h.indexOf?_eq_some.1 hi)
    rw [names_declare_of_some hi]
    simp [List.removeAll, hmem]
  | none =>
    have hmem : name ∉ names := by
      rw [← List.mem_eraseDups, ← hnames, Array.mem_toList_iff]
      exact h.indexOf?_eq_none.1 hi
    have hnew : [name].removeAll names = [name] := by simp [List.removeAll, hmem]
    rw [names_declare_of_none hi, Array.toList_push, hnew]
    rfl

theorem declare (h : t.Tidy) (name : String) (f : Option Nat) (span : Span) : (t.declare name f span).Tidy := by
  refine ⟨h.ok.declare name f span, ?_⟩
  cases hi : t.indexOf? name with
  | some i => rw [names_declare_of_some hi]; exact h.nodup
  | none =>
    rw [names_declare_of_none hi, Array.toList_push]
    refine List.nodup_append.2 ⟨h.nodup, by simp, ?_⟩
    rintro x hx y hy rfl
    cases List.mem_singleton.1 hy
    exact h.indexOf?_eq_none.1 hi (Array.mem_def.2 hx)

theorem lt_of_indexOf? (h : t.Tidy) {name : String} {i : Nat} (hi : t.indexOf? name = some i) : i < t.entries.size := by
  simpa [names] using (Array.getElem?_eq_some_iff.1 (h.indexOf?_eq_some.1 hi)).1

theorem initial?_declare (h : t.Tidy) (name : String) (f : Option Nat) (span : Span) (name' : String) :
    (t.declare name f span).initial? name' = if name = name' then f.or (t.initial? name) else t.initial? name' := by
  cases hi : t.indexOf? name with
  | none =>
    have ht : t.declare name f span = ⟨t.positions.insert name t.size, t.entries.push ⟨name, f, span⟩⟩ := by
      rw [BindingTable.declare, hi]
    have hindex : (t.declare name f span).indexOf? name' = if name = name' then some t.size else t.indexOf? name' := by
      rw [ht]
      simp only [indexOf?, Std.TreeMap.getElem?_insert, Std.LawfulEqCmp.compare_eq_iff_eq]
    rw [initial?, hindex, ht, initial?, initial?, hi]
    by_cases heq : name = name'
    · simp [heq, size]
    · simp only [heq, if_false]
      cases hj : t.indexOf? name' with
      | none => rfl
      | some j => simp [Array.getElem?_push, Nat.ne_of_lt (h.lt_of_indexOf? hj)]
  | some i =>
    have ht : t.declare name f span =
        ⟨t.positions, t.entries.modify i fun v => { v with initializer := f.or v.initializer }⟩ := by
      rw [BindingTable.declare, hi]
      cases f with
      | none =>
        have hid : t.entries.modify i (fun v => { v with initializer := (none : Option Nat).or v.initializer }) = t.entries :=
          Array.ext (by simp) fun j _ _ => by simp [Array.getElem_modify]
        rw [hid]
      | some f => rfl
    have hindex : (t.declare name f span).indexOf? name' = t.indexOf? name' := by
      rw [ht]
      rfl
    rw [initial?, hindex, ht, initial?, initial?, hi]
    by_cases heq : name = name'
    · rw [if_pos heq, ← heq, hi]
      simp [Array.getElem?_modify, h.lt_of_indexOf? hi]
    · rw [if_neg heq]
      cases hj : t.indexOf? name' with
      | none => rfl
      | some j =>
        have hij : i ≠ j := by
          rintro rfl
          exact heq (Option.some.inj ((h.indexOf?_eq_some.1 hi).symm.trans (h.indexOf?_eq_some.1 hj)))
        simp [Array.getElem?_modify, hij]

theorem initial?_of_mem (h : t.Tidy) {v : Variable} (hv : v ∈ t.entries) : t.initial? v.name = v.initializer := by
  obtain ⟨i, hi⟩ := Array.getElem?_of_mem hv
  have hindex : t.indexOf? v.name = some i := h.indexOf?_eq_some.2 (by simp [names, hi])
  rw [initial?, hindex, Option.bind_some, hi, Option.bind_some]

end Tidy

end BindingTable

/-! ## The table of a unit -/

/-- A table with the names of a unit, after some declarations. -/
structure Entered (params : List Identifier) (ds : List Declaration) (next : Nat) (t : BindingTable) : Prop where
  tidy : t.Tidy
  count : next = (ds.filterMap Declaration.function).length
  names : t.names.toList = (params.map Identifier.name ++ ds.map fun d => d.id.name).eraseDups
  lt : ∀ name k, t.initial? name = some k → k < next
  last : ∀ name, (t.initial? name).bind ((ds.filterMap Declaration.function)[·]?) = lastFunction ds name

namespace Entered

theorem ofParams (params : List Identifier) :
    Entered params [] 0 (params.foldl (fun t p => t.declare p.name none p.span) BindingTable.empty) := by
  suffices h : ∀ t, t = params.foldl (fun t p => t.declare p.name none p.span) BindingTable.empty →
      t.Tidy ∧ t.names.toList = (params.map Identifier.name).eraseDups ∧ ∀ name, t.initial? name = none by
    obtain ⟨htidy, hnames, hinitial⟩ := h _ rfl
    refine ⟨htidy, rfl, by simpa using hnames, fun name k hk => ?_, fun name => ?_⟩
    · rw [hinitial] at hk
      cases hk
    · rw [hinitial]
      rfl
  induction params using List.reverseRecOn with
  | nil =>
    rintro t rfl
    exact ⟨.empty, by simp [BindingTable.names, BindingTable.empty],
      fun _ => by simp [BindingTable.initial?, BindingTable.indexOf?, BindingTable.empty]⟩
  | append_singleton ps p ih =>
    rintro t rfl
    obtain ⟨htidy, hnames, hinitial⟩ := ih _ rfl
    rw [List.foldl_append, List.foldl_cons, List.foldl_nil]
    refine ⟨htidy.declare _ _ _, ?_, fun name => ?_⟩
    · rw [List.map_append]
      exact htidy.names_declare hnames p.name none p.span
    · rw [htidy.initial?_declare, hinitial, hinitial]
      simp

theorem concat {params : List Identifier} {ds : List Declaration} {next : Nat} {t : BindingTable}
    (h : Entered params ds next t) (d : Declaration) :
    Entered params (ds ++ [d]) (if d.function.isSome then next + 1 else next)
      (t.declare d.id.name (if d.function.isSome then some next else none) d.id.span) := by
  have hfunctions : (ds ++ [d]).filterMap Declaration.function =
      ds.filterMap Declaration.function ++ d.function.toList := by
    cases hd : d.function <;> simp [List.filterMap_append, hd]
  refine ⟨h.tidy.declare _ _ _, ?_, ?_, fun name k hk => ?_, fun name => ?_⟩
  · rw [hfunctions, List.length_append, ← h.count]
    cases d.function <;> rfl
  · rw [List.map_append, ← List.append_assoc]
    exact h.tidy.names_declare h.names d.id.name _ d.id.span
  · rw [h.tidy.initial?_declare] at hk
    cases hd : d.function with
    | none =>
      simp only [hd, Option.isSome_none, Bool.false_eq_true, if_false, Option.none_or] at hk ⊢
      split at hk
      · exact h.lt _ k hk
      · exact h.lt _ k hk
    | some f =>
      simp only [hd, Option.isSome_some, if_true, Option.some_or] at hk ⊢
      split at hk
      · cases hk
        exact Nat.lt_succ_self _
      · exact Nat.lt_succ_of_lt (h.lt _ k hk)
  · -- The functions that were there keep their numbers.
    have hold : ∀ name, (t.initial? name).bind (((ds ++ [d]).filterMap Declaration.function)[·]?) = lastFunction ds name := by
      intro name
      rw [← h.last]
      cases hk : t.initial? name with
      | none => rfl
      | some k =>
        simp only [Option.bind_some]
        rw [hfunctions, List.getElem?_append_left (h.count ▸ h.lt name k hk)]
    rw [h.tidy.initial?_declare, lastFunction_concat]
    cases hd : d.function with
    | none =>
      simp only [Option.isSome_none, Bool.false_eq_true, if_false, Option.none_or]
      split
      · rename_i heq
        rw [← heq, hold]
      · exact hold name
    | some f =>
      simp only [Option.isSome_some, if_true, Option.some_or]
      split
      · rw [Option.bind_some, hfunctions, List.getElem?_append_right (h.count ▸ Nat.le_refl _), h.count]
        simp [hd]
      · exact hold name

end Entered

theorem entered_foldl (params : List Identifier) (ds : List Declaration) : ∃ next t, ds.foldl (fun (next, t) d =>
      match d.function with
      | some _ => (next + 1, t.declare d.id.name (some next) d.id.span)
      | none => (next, t.declare d.id.name none d.id.span))
        (0, params.foldl (fun t p => t.declare p.name none p.span) .empty) = (next, t) ∧ Entered params ds next t := by
  induction ds using List.reverseRecOn with
  | nil => exact ⟨_, _, rfl, .ofParams params⟩
  | append_singleton ds d ih =>
    obtain ⟨next, t, heq, h⟩ := ih
    have hd := h.concat d
    rw [List.foldl_append, List.foldl_cons, List.foldl_nil, heq]
    dsimp only
    cases hf : d.function with
    | none => exact ⟨_, _, rfl, by simpa [hf] using hd⟩
    | some f => exact ⟨_, _, rfl, by simpa [hf] using hd⟩

theorem entered_entryTable (params : List Identifier) (ds : Array Declaration) :
    ∃ next, Entered params ds.toList next (entryTable params ds) := by
  obtain ⟨next, t, heq, h⟩ := entered_foldl params ds.toList
  have ht : entryTable params ds = t := by
    rw [entryTable, ← Array.foldl_toList]
    exact congrArg Prod.snd heq
  exact ⟨next, ht ▸ h⟩

/-- **The variables of a unit are its parameters, then the names that it declares, each where it
comes first.** -/
theorem names_entryTable (params : List Identifier) (ds : Array Declaration) : (entryTable params ds).names.toList =
    (params.map Identifier.name ++ ds.toList.map fun d => d.id.name).eraseDups := by
  obtain ⟨next, h⟩ := entered_entryTable params ds
  exact h.names

theorem mem_names_entryTable (params : List Identifier) (ds : Array Declaration) (name : String) :
    name ∈ (entryTable params ds).names ↔ (∃ p ∈ params, p.name = name) ∨ ∃ d ∈ ds, d.id.name = name := by
  rw [← Array.mem_toList_iff, names_entryTable, List.mem_eraseDups]
  simp

/-- **The names that functions fill on entry, in the order of the variables; the last function that
is declared with a name fills it.** -/
theorem initialFunctions_entryTable (params : List Identifier) (ds : Array Declaration) :
    Lowering.initialFunctions ds (entryTable params ds).entries =
      (entryTable params ds).names.toList.filterMap fun name => (lastFunction ds.toList name).map (name, ·) := by
  obtain ⟨next, h⟩ := entered_entryTable params ds
  rw [Lowering.initialFunctions, BindingTable.names, Array.toList_map, List.filterMap_map]
  refine List.filterMap_congr fun v hv => ?_
  rw [Function.comp, ← h.last, h.tidy.initial?_of_mem (Array.mem_toList_iff.1 hv), ← Array.toList_filterMap]
  cases v.initializer with
  | none => rfl
  | some k =>
    simp only [Option.bind_eq_bind, Option.bind_some, Array.getElem?_toList]
    cases (ds.filterMap Declaration.function)[k]? <;> rfl

theorem mem_initialFunctions (params : List Identifier) (ds : Array Declaration) (name : String) (f : FunctionTree) :
    (name, f) ∈ Lowering.initialFunctions ds (entryTable params ds).entries ↔ lastFunction ds.toList name = some f := by
  rw [initialFunctions_entryTable, List.mem_filterMap]
  constructor
  · rintro ⟨name', -, hf⟩
    obtain ⟨g, hg, heq⟩ := Option.map_eq_some_iff.1 hf
    cases heq
    exact hg
  · intro hf
    obtain ⟨d, hd, hname⟩ := exists_of_lastFunction hf
    refine ⟨name, ?_, by rw [hf, Option.map_some]⟩
    rw [Array.mem_toList_iff, mem_names_entryTable]
    exact .inr ⟨d, Array.mem_toList_iff.1 hd, hname⟩

theorem nodup_initialFunctions (params : List Identifier) (ds : Array Declaration) :
    ((Lowering.initialFunctions ds (entryTable params ds).entries).map Prod.fst).Nodup := by
  obtain ⟨next, h⟩ := entered_entryTable params ds
  have hsublist : ∀ names : List String, ((names.filterMap fun name =>
      (lastFunction ds.toList name).map (name, ·)).map Prod.fst).Sublist names := by
    intro names
    induction names with
    | nil => exact .slnil
    | cons name names ih =>
      rw [List.filterMap_cons]
      cases lastFunction ds.toList name with
      | none => exact ih.cons _
      | some f => exact ih.cons_cons _
  rw [initialFunctions_entryTable]
  exact (hsublist _).nodup h.tidy.nodup

end ScriptEngine
