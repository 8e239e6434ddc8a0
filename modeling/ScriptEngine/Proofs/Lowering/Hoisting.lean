/-
Hoisting. Wherever a name is declared in a unit, it is a variable of the unit, and
functions are there before the first statement runs. What is declared is said
over the list of all statements of a body in textual order. Main statement:
`UnitOf.hoisted`.
-/
import ScriptEngine.Proofs.Lowering.Unit
import ScriptEngine.Proofs.Scope.Declarations

namespace ScriptEngine

open Layout

/-! ## The statements of a body -/

mutual

/-- The statement and those inside it in textual order. The bodies of functions are left out. -/
def Stmt.parts : Stmt → List StmtKind
  | ⟨_, _, kind⟩ => kind.parts

def StmtKind.parts : StmtKind → List StmtKind
  | .block body => .block body :: bodyParts body
  | .branch test consequent alternate =>
    .branch test consequent alternate :: (consequent.parts ++ alternateParts alternate)
  | .loop head body => .loop head body :: body.parts
  | .switch discriminant cases => .switch discriminant cases :: casesParts cases
  | .attempt block handler finalizer =>
    .attempt block handler finalizer :: (bodyParts block ++ handlerParts handler ++ finalizerParts finalizer)
  | .scoped object body => .scoped object body :: body.parts
  | kind => [kind]

def alternateParts : Option Stmt → List StmtKind
  | none => []
  | some s => s.parts

def handlerParts : Option CatchClause → List StmtKind
  | none => []
  | some ⟨_, body⟩ => bodyParts body

def finalizerParts : Option (List Stmt) → List StmtKind
  | none => []
  | some body => bodyParts body

def bodyParts : List Stmt → List StmtKind
  | [] => []
  | s :: ss => s.parts ++ bodyParts ss

def casesParts : List SwitchCase → List StmtKind
  | [] => []
  | ⟨_, body⟩ :: cs => bodyParts body ++ casesParts cs

end

/-- What a statement itself declares, apart from the statements in it. -/
def StmtKind.declares : StmtKind → List Declaration
  | .var ds | .loop (.counted (some (.declare ds)) _ _) _ => ds.map fun d => ⟨d.id, none⟩
  | .loop (.forIn (.declare d) _) _ => [⟨d.id, none⟩]
  | .function ⟨some id, params, body, span⟩ => [⟨id, some ⟨some id, params, body, span⟩⟩]
  | _ => []

def declaredIn (body : List Stmt) : List Declaration := (bodyParts body).flatMap StmtKind.declares

theorem LoopHead.declarations_eq (head : LoopHead) (body : Stmt) :
    head.declarations = (StmtKind.loop head body).declares := by
  rcases head with ⟨_ | ⟨ds⟩ | e, _, _⟩ | _ | _ | ⟨d | e, _⟩ <;> rfl

theorem FunctionTree.declaration_eq (f : FunctionTree) : f.declaration = (StmtKind.function f).declares := by
  obtain ⟨_ | id, _, _, _⟩ := f <;> rfl

theorem toList_hoist :
    (∀ (s : Stmt) before, (s.hoist before).toList = before.toList ++ s.parts.flatMap StmtKind.declares) ∧
    (∀ (kind : StmtKind) before, (kind.hoist before).toList = before.toList ++ kind.parts.flatMap StmtKind.declares) ∧
    (∀ c before, (hoistHandler c before).toList = before.toList ++ (handlerParts c).flatMap StmtKind.declares) ∧
    (∀ body before, (hoistAll body before).toList = before.toList ++ (bodyParts body).flatMap StmtKind.declares) ∧
    (∀ body before,
      (hoistFinalizer body before).toList = before.toList ++ (finalizerParts body).flatMap StmtKind.declares) ∧
    (∀ cs before, (hoistCases cs before).toList = before.toList ++ (casesParts cs).flatMap StmtKind.declares) ∧
    ∀ s before, (hoistAlternate s before).toList = before.toList ++ (alternateParts s).flatMap StmtKind.declares := by
  apply Stmt.hoist.mutual_induct
  case case7 =>
    intro head body before ih
    rw [StmtKind.hoist, ih]
    simp [StmtKind.parts, head.declarations_eq body]
  all_goals
    intros
    simp [Stmt.hoist, Stmt.parts, StmtKind.hoist, StmtKind.parts, StmtKind.declares, hoistHandler, handlerParts, hoistAll,
      bodyParts, hoistFinalizer, finalizerParts, hoistCases, casesParts, hoistAlternate, alternateParts,
      Declarator.declaration, FunctionTree.declaration_eq, *]

/-- **Hoisting finds what the statements of a body declare, in textual order.** -/
theorem toList_declarations (body : List Stmt) : (declarations body).toList = declaredIn body :=
  toList_hoist.2.2.2.1 body #[]

/-! ## The entry of a unit -/

/-- The functions that fill some of the names on entry, in the order of the names: for each name
the last function that is declared with it. -/
def filledBy (ds : List Declaration) (names : List String) : List (String × FunctionTree) :=
  names.filterMap fun name => (lastFunction ds name).map (name, ·)

/-- The instruction stores the top of the stack in a variable of the unit. -/
def CodeUnit.Stores (u : CodeUnit) (name : String) (i : Instruction) : Prop :=
  match u.storage with
  | .static => ∃ k, u.bindings[k]? = some name ∧ i = ⟨.storeSlot, some (.slot 0 k)⟩
  | .dynamic => ∃ k, u.constants[k]? = some (.string name) ∧
      i = ⟨if u.strict then .storeNameStrict else .storeName, some (.property k)⟩

/-- Three instructions make a closure of a function, store it under a name and drop it. -/
structure CodeUnit.Fills (u : CodeUnit) (p : Nat) (name : String) (f : FunctionTree) : Prop where
  closure : ∃ k v o env, u.functions[k]? = some v ∧ Lowered o env ⟨f, false, u.strict⟩ v ∧
    u.instructions[p]? = some ⟨.closure, some (.function k)⟩
  store : ∃ i, u.Stores name i ∧ u.instructions[p + 1]? = some i
  drop : u.instructions[p + 2]? = some ⟨.pop, none⟩

/-- The variables of a unit are its parameters and what its body declares. Its code first fills
those that functions are declared for, and then comes the code of its statements. -/
structure CodeUnit.Hoists (u : CodeUnit) (params : List Identifier) (body : List Stmt) : Prop where
  bindings : u.bindings.toList =
    (params.map Identifier.name ++ (declaredIn body).map fun d => d.id.name).eraseDups
  fills : ∀ j name f, (filledBy (declaredIn body) u.bindings.toList)[j]? = some (name, f) → u.Fills (3 * j) name f
  statements : ∃ c t q, c.unit = u ∧ c.regions = [] ∧
    bodyAt body c ⟨3 * (filledBy (declaredIn body) u.bindings.toList).length, t⟩ q

/-- A unit is made of a script, of code given to `eval` or of a function, with these parameters and
statements. -/
inductive UnitOf : CodeUnit → List Identifier → List Stmt → Prop
  | script {o p u} : compile o p = .ok u → UnitOf u [] p.body
  | eval {o strict p u} : compileEval o strict p = .ok u → UnitOf u [] p.body
  | function {o env src u} : Lowered o env src u → UnitOf u src.tree.params src.tree.body

structure Fronts (c : Setting) (u : CodeUnit) : Prop where
  unit : c.unit = u
  strict : c.strict = u.strict
  regions : c.regions = []
  env : match u.storage with
    | .static => ∃ outer, c.env = u.bindings :: outer
    | .dynamic => c.env = []

namespace Fronts

variable {c : Setting} {u : CodeUnit}

theorem stores (h : Fronts c u) {name : String} (hname : name ∈ u.bindings) {a b : Point} (hs : store c name a b) :
    (∃ i, u.Stores name i ∧ u.instructions[a.pc]? = some i) ∧ b.pc = a.pc + 1 := by
  obtain ⟨hunit, hstrict, -, henv⟩ := h
  subst hunit
  simp only [CodeUnit.Stores]
  cases hst : c.unit.storage with
  | «static» =>
    rw [hst] at henv
    obtain ⟨outer, henv⟩ := henv
    obtain ⟨k, hk⟩ : ∃ k, c.unit.bindings.findIdx? (· == name) = some k := by
      rw [← Option.isSome_iff_exists, Array.findIdx?_isSome, Array.any_eq_true']
      exact ⟨name, hname, beq_self_eq_true name⟩
    have hentry : c.unit.bindings[k]? = some name := by
      obtain ⟨hlt, heq, -⟩ := Array.findIdx?_eq_some_iff_getElem.1 hk
      rw [Array.getElem?_eq_getElem hlt, beq_iff_eq.1 heq]
    rw [store, henv, Env.resolve, Env.resolveFrom, hk] at hs
    obtain ⟨-, hi, rfl⟩ := hs
    exact ⟨⟨_, ⟨k, hentry, rfl⟩, hi⟩, rfl⟩
  | dynamic =>
    rw [hst] at henv
    rw [store, show c.env = [] from henv] at hs
    obtain ⟨k, hk, hi, rfl⟩ := hs
    rw [hstrict] at hi
    exact ⟨⟨_, ⟨k, hk, rfl⟩, hi⟩, rfl⟩

theorem fills (h : Fronts c u) : ∀ (fs : List (String × FunctionTree)) {a b : Point},
    (∀ p ∈ fs, p.1 ∈ u.bindings) → functionsAt c fs a b →
      (∀ j name f, fs[j]? = some (name, f) → u.Fills (a.pc + 3 * j) name f) ∧ b.pc = a.pc + 3 * fs.length
  | [], a, _, _, rfl => ⟨fun j name f hj => by simp at hj, rfl⟩
  | (name, f) :: fs, a, b, hnames, hcode => by
    obtain ⟨_, ⟨k, v, hv, hlow, hclosure, rfl⟩, -, m, hstore, -, _, ⟨hpop, rfl⟩, -, hrest⟩ := hcode
    obtain ⟨hstore, hm⟩ := h.stores (hnames _ (.head _)) hstore
    obtain ⟨hfills, hb⟩ := h.fills fs (fun p hp => hnames p (.tail _ hp)) hrest
    rw [h.unit] at hv hclosure hpop
    rw [h.strict] at hlow
    rw [hm] at hpop
    dsimp only at hm hfills hb
    refine ⟨fun j name' f' hj => ?_, ?_⟩
    · cases j with
      | zero =>
        cases hj
        exact ⟨⟨k, v, _, _, hv, hlow, hclosure⟩, hstore, hpop⟩
      | succ j =>
        have hp : a.pc + 3 * (j + 1) = m.pc + 1 + 3 * j := by omega
        rw [hp]
        exact hfills j name' f' hj
    · rw [hb, hm, List.length_cons]
      omega

theorem hoists (h : Fronts c u) {params : List Identifier} {body : List Stmt}
    (hbindings : u.bindings = (entryTable params (declarations body)).names) {t : Nat} {q : Point}
    (hentry : entryAt c (Lowering.initialFunctions (declarations body) (entryTable params (declarations body)).entries)
      body ⟨0, t⟩ q) : u.Hoists params body := by
  obtain ⟨m, hfunctions, -, m', hbody, -⟩ := hentry
  have hfs : Lowering.initialFunctions (declarations body) (entryTable params (declarations body)).entries =
      filledBy (declaredIn body) u.bindings.toList := by
    rw [initialFunctions_entryTable, hbindings, toList_declarations, filledBy]
  rw [hfs] at hfunctions
  have hnames : ∀ p ∈ filledBy (declaredIn body) u.bindings.toList, p.1 ∈ u.bindings := by
    intro p hp
    obtain ⟨name, hname, hf⟩ := List.mem_filterMap.1 hp
    obtain ⟨f, -, rfl⟩ := Option.map_eq_some_iff.1 hf
    exact Array.mem_toList_iff.1 hname
  obtain ⟨hfills, hm⟩ := h.fills _ hnames hfunctions
  dsimp only at hfills hm
  refine ⟨?_, fun j name f hj => ?_, c, m.temps, m', h.unit, h.regions, ?_⟩
  · rw [hbindings, names_entryTable, toList_declarations]
  · rw [← Nat.zero_add (3 * j)]
    exact hfills j name f hj
  · rw [← Nat.zero_add (3 * _), ← hm]
    exact hbody

end Fronts

theorem Lowering.lowerProgram_hoists {o : LoweringOptions} {kind : UnitKind} {scopeKind : ScopeKind} {strict : Bool}
    {p : Program} {u : CodeUnit} (hkind : kind ≠ .function) (hscope : scopeKind.storage .dynamic = .dynamic)
    (h : lowerProgram o kind scopeKind strict p = .ok u) : u.Hoists [] p.body := by
  obtain ⟨hbindings, hstrict, -, q, -, hq⟩ := lowerProgram_ok hkind hscope h
  refine Fronts.hoists ⟨rfl, hstrict.symm, rfl, ?_⟩ hbindings hq
  rw [lowerProgram_storage hscope h]

theorem Lowered.hoists {o : LoweringOptions} {env : Env} {src : Meaning.Source} {u : CodeUnit}
    (h : Lowered o env src u) : u.Hoists src.tree.params src.tree.body := by
  obtain ⟨hout, -, q, -, hq⟩ := h.unit
  have hstorage : u.storage = storageOf src.tree.body := congrArg CodeUnit.storage hout
  have hbindings : u.bindings = src.table.names := congrArg CodeUnit.bindings hout
  have hstrict : u.strict = src.isStrict := congrArg CodeUnit.strict hout
  refine Fronts.hoists ⟨rfl, hstrict.symm, rfl, ?_⟩ hbindings hq
  rw [hstorage, hbindings]
  simp only [Lowering.bodyEnv]
  cases storageOf src.tree.body with
  | «static» => exact ⟨_, rfl⟩
  | dynamic => rfl

/-- **The variables of a unit are its parameters and the names that its statements declare at any
depth, and its code begins by filling those that functions are declared for; so do the functions
in it.** -/
theorem UnitOf.hoisted {u : CodeUnit} {params : List Identifier} {body : List Stmt} (h : UnitOf u params body) :
    u.Hoists params body ∧ ∀ v ∈ u.functions, ∃ f : FunctionTree, UnitOf v f.params f.body := by
  have hfunctions : u.Closes → ∀ v ∈ u.functions, ∃ f : FunctionTree, UnitOf v f.params f.body := by
    intro hcloses v hv
    obtain ⟨o, env, src, hsrc⟩ := hcloses.ofFunction hv
    exact ⟨src.tree, .function hsrc⟩
  cases h with
  | script h =>
    obtain ⟨-, -, hcloses, -⟩ := Lowering.lowerProgram_ok (by decide) rfl h
    exact ⟨Lowering.lowerProgram_hoists (by decide) rfl h, hfunctions hcloses⟩
  | eval h =>
    obtain ⟨-, -, hcloses, -⟩ := Lowering.lowerProgram_ok (by decide) rfl h
    exact ⟨Lowering.lowerProgram_hoists (by decide) rfl h, hfunctions hcloses⟩
  | function h => exact ⟨h.hoists, hfunctions h.unit.2.1⟩

/-- A loop over keys, a handler and functions that declare the same names. -/
theorem UnitOf.hoisted_redeclared :
    let name (s : String) : Identifier := ⟨s, default⟩
    let stmt (kind : StmtKind) : Stmt := ⟨[], default, kind⟩
    let first : FunctionTree := ⟨some (name "f"), [], [], default⟩
    let last : FunctionTree := ⟨some (name "f"), [name "a"], [stmt (.var [⟨name "b", none⟩])], default⟩
    let body : List Stmt :=
      [stmt (.loop (.forIn (.declare ⟨name "i", none⟩) .null) (stmt (.block [stmt (.function first)]))),
       stmt (.attempt [] (some ⟨name "e", [stmt (.var [⟨name "i", none⟩, ⟨name "y", none⟩])]⟩) none),
       stmt (.function last)]
    ∃ u, compile .standard ⟨body⟩ = .ok u ∧ u.bindings.toList = ["i", "f", "y"] ∧ u.Fills 0 "f" last := by
  intro name stmt first last body
  have hok : (compile .standard ⟨body⟩).isOk = true := by decide +kernel
  cases hc : compile .standard ⟨body⟩ with
  | error f => simp [hc, Except.isOk, Except.toBool] at hok
  | ok u =>
    obtain ⟨hu, -⟩ := (UnitOf.script hc).hoisted
    have hbindings : u.bindings.toList = ["i", "f", "y"] := hu.bindings.trans (by decide +kernel)
    refine ⟨u, rfl, hbindings, hu.fills 0 "f" last ?_⟩
    rw [hbindings]
    rfl

end ScriptEngine
