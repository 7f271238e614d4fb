import Multistage.Proofs.CheckedPrograms

/-!
# Type soundness

A program that the checker accepts, with its references across stages made explicit, is evaluated without
type errors if no use of a name rests on a binding that only the checker keeps, and if quotes bind each
loose name at one type: it ends with a value of the shape that its type promises, at a division by zero,
or at a stray name that nothing binds where the code ended up. Without the condition on loose names this
fails: code can be moved to where its names are not bound, or are bound at other types.

Main statements: `prepared_programs_evaluate_safely` and `code_meets_other_bindings`.
-/

namespace Multistage

/-! ## How programs may end -/

/-- The kind of the values of a type: code beyond stage 0, and what the type says at stage 0. -/
def Ty.shape? (τ : Ty) : Option Shape :=
  if 0 < τ.stage then some .code
  else if τ.stage < 0 then none
  else
    match τ with
    | .base .int _ => some .integer
    | .base .float _ => some .float
    | .base .string _ => some .string
    | .base .void _ => some .void
    | .base (.prim _) _ => none
    | .arrow .. => some .function

/-- Evaluation ends with a value of the type's shape, at a division by zero or at one of the `stray` names
that is not bound, unless it takes more fuel than there is. -/
inductive EndsWell (stray : List String) (τ : Ty) : EStateM.Result Stop Machine Value → Prop
  | value {v m} : τ.shape? = some v.shape → EndsWell stray τ (.ok v m)
  | divisionByZero {m} : EndsWell stray τ (.error (.failure .divisionByZero) m)
  | unbound {name m} : name ∈ stray → EndsWell stray τ (.error (.failure (.unbound name)) m)
  | outOfFuel {m} : EndsWell stray τ (.error .outOfFuel m)

/-- A program with different identities below those of the supply and without host functions elaborates
with a type, and `q` is the program with explicit references. -/
structure Prepared (t : Term) (supply : Supply) (e : Elaboration) (τ : Ty) (q : Program) : Prop where
  ids : t.ids.Nodup
  fresh : ∀ id ∈ t.ids, id < supply.next
  host : ∀ node ∈ t.nodes, node.tag ≠ .host
  elaborates : Prelude.general.elaborate t = .ok e
  type : e.rootType? = some τ
  explicit : Program.makeExplicit ⟨t, supply⟩ e.table = .ok q

/-- A value has the shape that its type says. -/
theorem Inhabits.shape_eq {S : Ledger} {σ : List Ty} {v : Value} {τ : Ty} (h : Inhabits S σ v τ) :
    τ.shape? = some v.shape := by
  cases h with
  | @code body held B Φ τ _ hstage =>
    have hcode : 0 < (τ.shift 1).stage := by
      rw [Ty.stage_shift]
      omega
    unfold Ty.shape?
    exact if_pos hcode
  | _ => rfl

/-! ## The ledger of a program -/

section Ledger

variable {reader : Reader} {types : TypeTable} {t : Term} {names : List String}

/-- A type that the quotes of a program bind a name with, if there is any. -/
noncomputable def Term.typeOf (types : TypeTable) (t : Term) (name : String) : Ty :=
  Classical.epsilon fun τ => (name, τ) ∈ t.bindings types

/-- A name of one type is bound with that type. -/
theorem BoundAtOneType.typeOf_eq (h : BoundAtOneType types t names) {name : String} {τ : Ty}
    (hname : name ∈ names) (hbound : (name, τ) ∈ t.bindings types) : t.typeOf types name = τ := by
  have hchosen : (name, t.typeOf types name) ∈ t.bindings types :=
    Classical.epsilon_spec (p := fun τ => (name, τ) ∈ t.bindings types) ⟨τ, hbound⟩
  exact h name hname _ hchosen _ hbound rfl rfl

/-- The loose names of a program and their types. -/
noncomputable def LooseNamesAgree.ledger (h : LooseNamesAgree reader types t) : Ledger where
  loose name := name ∈ t.looseNames reader
  stray name := name ∈ t.strayNames reader
  target name := name ∈ t.looseTargets reader
  type := t.typeOf types
  leaks := t.leaks reader
  intrinsic _ _ htype hloose :=
    BoundAtOneType.typeOf_eq h hloose (List.mem_append_right _ (Scope.mem_of_newest? htype))

/-- The use of a name at a node is one of the uses of the program. -/
theorem Term.mem_uses {place : Spot} {node : Term} {name : String} {assigned : Bool}
    (h : (place, node) ∈ t.spots (t.leaks reader) .start) (huse : node.use? = some (name, assigned)) :
    ⟨name, assigned, place⟩ ∈ t.uses reader := by
  refine List.mem_filterMap.2 ⟨_, h, ?_⟩
  rw [huse]
  rfl

/-- Where no use is misled for one reader, none is for the other. -/
theorem Term.steady_of_misledUses (h : t.misledUses = []) {u : Use} (hu : u ∈ t.uses reader) :
    u.misled = false := by
  rcases List.mem_filterMap.1 hu with ⟨⟨place, node⟩, hplace, hsome⟩
  rcases Option.map_eq_some_iff.1 hsome with ⟨⟨name, assigned⟩, huse, rfl⟩
  -- the scope of the checker is the same in both walks
  rcases Term.exists_spots_alike (t.leaks .evaluator) ⟨rfl, rfl⟩ hplace with ⟨place', hplace', halike⟩
  have hnone := List.map_eq_nil_iff.1 h
  rw [List.filter_eq_nil_iff] at hnone
  have hsteady := hnone _ (Term.mem_uses hplace' huse)
  simpa [Use.misled, halike.sight] using hsteady

theorem LooseNamesAgree.resolves (h : LooseNamesAgree reader types t) (hmisled : t.misledUses = [])
    {u : Use} (hu : u ∈ t.uses reader) : h.ledger.Resolves u where
  steady := Term.steady_of_misledUses hmisled hu
  loose hopen := List.mem_map_of_mem (List.mem_filter.2 ⟨hu, hopen⟩)
  target hopen hassigned := List.mem_map_of_mem (List.mem_filter.2 ⟨hu, by simp [hopen, hassigned]⟩)
  stray hstray := List.mem_map_of_mem (List.mem_filter.2 ⟨hu, hstray⟩)

/-- The nodes of a program do what its ledger admits. -/
theorem LooseNamesAgree.admits (h : LooseNamesAgree reader types t) (hmisled : t.misledUses = [])
    (hhidden : reader = .checker → t.hiddenNames = []) :
    ∀ e ∈ t.spots h.ledger.leaks .start, h.ledger.Admits types e.1 e.2 := by
  rintro ⟨place, node⟩ hplace
  have hnode : ((place.level : Int), node) ∈ t.nodesAt 0 := Term.mem_nodesAt_of_spots hplace
  -- what a node binds in a quote is among the bindings of the program
  have hbinds : place.level ≠ 0 → ∀ name τ, (name, τ) ∈ node.boundBy types →
      name ∈ t.looseNames reader → τ = t.typeOf types name := by
    intro hlevel name τ hbound hloose
    refine (BoundAtOneType.typeOf_eq h hloose (List.mem_append_left _ ?_)).symm
    refine List.mem_flatMap.2 ⟨_, hnode, ?_⟩
    rw [if_pos (show (0 : Int) < place.level by omega)]
    exact hbound
  constructor
  · rintro s label snippet body rfl name hname
    exact List.mem_flatMap.2 ⟨_, Term.mem_nodes_of_nodesAt hnode, hname⟩
  · rintro s name value j rfl hj hlevel hloose
    exact hbinds hlevel name j.type (by simp [Term.boundBy, hj]) hloose
  · rintro s params body bound rfl hbound hlevel b hb hloose
    refine hbinds hlevel b.1 b.2 ?_ hloose
    rw [Term.boundBy, hbound]
    exact hb
  · intro name assigned huse
    exact h.resolves hmisled (Term.mem_uses hplace huse)
  · rintro s kind body rfl hkind rfl name hloose
    -- a loose name that is found further in here would be hidden
    by_contra hhides
    have hmem : name ∈ t.hiddenNames := by
      refine List.mem_flatMap.2 ⟨_, hplace, ?_⟩
      cases kind with
      | persist => exact absurd rfl hkind
      | splice | snippet => exact List.mem_filter.2 ⟨hloose, by simpa using hhides⟩
    rw [hhidden rfl] at hmem
    cases hmem

end Ledger

/-! ## Whole programs -/

section Programs

variable {reader : Reader} {t : Term} {supply : Supply} {e : Elaboration} {τ : Ty} {q : Program}

/-- A prepared program is typed by its ledger, and evaluates safely. -/
theorem Prepared.safe (h : Prepared t supply e τ q) (hmisled : q.root.misledUses = [])
    (hagree : LooseNamesAgree reader e.table q.root)
    (hhidden : reader = .checker → q.root.hiddenNames = []) (fuel : Nat) :
    Eval.Safe hagree.ledger [] (interpret fuel q.root) {} fun σ v => Inhabits hagree.ledger σ v τ := by
  rcases elaborate_eq_ok_iff.1 h.elaborates with ⟨j, log, hj, rfl⟩
  obtain rfl : j.type = τ := Option.some.inj ((rootType?_eq hj).symm.trans h.type)
  have hready : Ready hagree.ledger (Table.ofList log) {} .start t log q.root :=
    ⟨get?_ofList_log hj h.ids, h.host, .start, hagree.admits hmisled hhidden⟩
  obtain ⟨B, hB⟩ : ∃ B, Checked hagree.ledger {} .start [] q.root j B :=
    checks t hj (explicit_of_makeExplicit h.explicit) hready
  have hstored : Stored hagree.ledger [] {} := .nil
  refine ((Eval.sound hagree.ledger fuel).eval hB.typed rfl .empty .nil hstored).bind ?_
  intro r m σ _ hm hr
  exact Eval.safe_pure hm hr.1

/-- **Checked programs are evaluated without type errors**, as long as evaluation has all bindings that the
checker has found and the quotes bind each loose name at one type. -/
theorem prepared_programs_evaluate_safely (h : Prepared t supply e τ q) (hmisled : q.root.misledUses = [])
    (hagree : LooseNamesAgree .evaluator e.table q.root) (fuel : Nat) :
    EndsWell (q.root.strayNames .evaluator) τ (interpret fuel q.root {}) := by
  have hsafe := h.safe hmisled hagree (fun hchecker => by cases hchecker) fuel
  rcases hrun : interpret fuel q.root {} with ⟨v, m⟩ | ⟨stop, m⟩
  · rcases hsafe.ok hrun with ⟨σ, -, -, hv⟩
    exact .value hv.shape_eq
  · cases hsafe.error hrun with
    | outOfFuel => exact .outOfFuel
    | divisionByZero => exact .divisionByZero
    | unbound hstray => exact .unbound hstray

end Programs

/-! ## Code that meets other bindings -/

/-- `let twice = fun (c : <Int>) < [c] + [c] >; ! < let x = 5; [ twice(< x >) ] >`: the code of `x` is open
where it is written, and closed where it is spliced. -/
def openArgument : Term :=
  .seq ⟨0, {}⟩
    (.define ⟨1, {}⟩ "twice" (.lambda ⟨2, {}⟩ [⟨3, "c", some (.code (.named "Int"))⟩]
      (.quote ⟨4, {}⟩ none false (.binary ⟨5, {}⟩ .add
        (.escape ⟨6, {}⟩ .splice (.lookup ⟨7, {}⟩ "c")) (.escape ⟨8, {}⟩ .splice (.lookup ⟨9, {}⟩ "c"))))))
    (.run ⟨10, {}⟩ (.quote ⟨11, {}⟩ none false (.seq ⟨12, {}⟩
      (.define ⟨13, {}⟩ "x" (.literal ⟨14, {}⟩ (.int 5)))
      (.escape ⟨15, {}⟩ .splice (.call ⟨16, {}⟩ (.lookup ⟨17, {}⟩ "twice")
        [.quote ⟨18, {}⟩ none false (.lookup ⟨19, {}⟩ "x")])))))

theorem prepared_programs_evaluate_safely_openArgument : ∃ e q,
    Prepared openArgument ⟨20⟩ e .int q ∧ q.root.misledUses = [] ∧
      LooseNamesAgree .evaluator e.table q.root ∧ q.root.strayNames .evaluator = ["x"] ∧
      (∃ m, interpret 30 q.root {} = .ok (.int 10) m) ∧
      ∀ fuel, EndsWell (q.root.strayNames .evaluator) .int (interpret fuel q.root {}) := by
  obtain ⟨e, q, h, hmisled, hagree, hstray, hrun⟩ : ∃ e q,
      Prepared openArgument ⟨20⟩ e .int q ∧ q.root.misledUses = [] ∧
        LooseNamesAgree .evaluator e.table q.root ∧ q.root.strayNames .evaluator = ["x"] ∧
        ∃ m, interpret 30 q.root {} = .ok (.int 10) m := by
    exact ⟨_, _, ⟨by decide, Term.ids_lt_of_all rfl, by decide, rfl, rfl, rfl⟩, rfl, by decide, rfl, _, rfl⟩
  exact ⟨e, q, h, hmisled, hagree, hstray, hrun, prepared_programs_evaluate_safely h hmisled hagree⟩

/-- `let c = < 0 >; < let x = 5; [ c = < x > ] >; ! c`: code leaves the quote that binds its name. -/
def extruded : Term :=
  .seq ⟨0, {}⟩ (.define ⟨1, {}⟩ "c" (.quote ⟨2, {}⟩ none false (.literal ⟨3, {}⟩ (.int 0))))
    (.seq ⟨4, {}⟩
      (.quote ⟨5, {}⟩ none false (.seq ⟨6, {}⟩ (.define ⟨7, {}⟩ "x" (.literal ⟨8, {}⟩ (.int 5)))
        (.escape ⟨9, {}⟩ .splice (.assign ⟨10, {}⟩ "c" (.quote ⟨11, {}⟩ none false
          (.lookup ⟨12, {}⟩ "x"))))))
      (.run ⟨13, {}⟩ (.lookup ⟨14, {}⟩ "c")))

/-- `let c = < float(1) >; ! < let float = 5; [c] >`: code is spliced where its name has another type. -/
def captured : Term :=
  .seq ⟨0, {}⟩
    (.define ⟨1, {}⟩ "c" (.quote ⟨2, {}⟩ none false
      (.call ⟨3, {}⟩ (.lookup ⟨4, {}⟩ "float") [.literal ⟨5, {}⟩ (.int 1)])))
    (.run ⟨6, {}⟩ (.quote ⟨7, {}⟩ none false (.seq ⟨8, {}⟩
      (.define ⟨9, {}⟩ "float" (.literal ⟨10, {}⟩ (.int 5)))
      (.escape ⟨11, {}⟩ .splice (.lookup ⟨12, {}⟩ "c")))))

/-- `let c = < let x = "s" >; ! < let x = 1; [c]; x >`: spliced code binds a name for what follows. -/
def rebound : Term :=
  .seq ⟨0, {}⟩
    (.define ⟨1, {}⟩ "c" (.quote ⟨2, {}⟩ none false
      (.define ⟨3, {}⟩ "x" (.literal ⟨4, {}⟩ (.string "s")))))
    (.run ⟨5, {}⟩ (.quote ⟨6, {}⟩ none false (.seq ⟨7, {}⟩
      (.define ⟨8, {}⟩ "x" (.literal ⟨9, {}⟩ (.int 1)))
      (.seq ⟨10, {}⟩ (.escape ⟨11, {}⟩ .splice (.lookup ⟨12, {}⟩ "c")) (.lookup ⟨13, {}⟩ "x")))))

/-- Checked programs can end at a name that is not bound, at a value of another type, and with a value of
another type than their own. -/
theorem code_meets_other_bindings :
    (∃ e q m, Prepared extruded ⟨20⟩ e .int q ∧
      interpret 30 q.root {} = .error (.failure (.unbound "x")) m) ∧
    (∃ e q m, Prepared captured ⟨20⟩ e .float q ∧
      interpret 30 q.root {} = .error (.failure (.unexpected .function .integer)) m) ∧
    ∃ e q m, Prepared rebound ⟨20⟩ e .int q ∧ interpret 30 q.root {} = .ok (.string "s") m := by
  refine ⟨⟨_, _, _, ⟨by decide, Term.ids_lt_of_all rfl, by decide, rfl, rfl, rfl⟩, rfl⟩,
    ⟨_, _, _, ⟨by decide, Term.ids_lt_of_all rfl, by decide, rfl, rfl, rfl⟩, rfl⟩,
    ⟨_, _, _, ⟨by decide, Term.ids_lt_of_all rfl, by decide, rfl, rfl, rfl⟩, rfl⟩⟩

end Multistage
