import Multistage.Proofs.CheckedPrograms
import Multistage.Proofs.Findings
import Multistage.Proofs.OwnLevels

/-!
# Names mean the same to the checker and to the survey

The checker and the survey go through a program with scopes of their own. They agree on which names a term
binds for what follows it, but for one thing: the checker goes on with the names that are bound inside the
value of a definition or of an assignment, and the survey forgets them (`Term.leaked`). Of any other name
`BoundAlike` says that both have found the same definition, or none, and `InStep` carries this through the
program, from each node to the nodes below it (`InStep.child`).

Main statement: `names_resolve_alike`.
-/

namespace Multistage

open Term

/-- The names that only the checker knows after a node: those bound in the value of a definition or of an
assignment. -/
def Term.leaked : Term → List String
  | .define _ _ value | .assign _ _ value => value.rebinds
  | _ => []

/-! ## Definitions of names -/

/-- A node defines a name under an identity, at a type. The table does not have types of parameters. -/
inductive Term.Defines (types : TypeTable) : Term → String → NodeId → Ty → Prop where
  | define {s : Site} {name : String} {value : Term} {j : Judgement} :
    types.get? s.id = some j → Defines types (.define s name value) name s.id j.type
  | host {s : Site} {name : String} {written : TypeExpr} {j : Judgement} :
    types.get? s.id = some j → Defines types (.host s name written) name s.id j.type
  | param {s : Site} {params : List Param} {body : Term} {param : Param} {τ : Ty} :
    param ∈ params → Defines types (.lambda s params body) param.name param.id τ

/-- A definition is a node with its type in the table, or a parameter. -/
theorem Term.Defines.recorded {types : TypeTable} {node : Term} {name : String} {d : NodeId} {τ : Ty}
    (h : node.Defines types name d τ) :
    (∃ j, types.get? d = some j ∧ j.type = τ) ∨ ∃ param ∈ node.params, param.id = d := by
  cases h with
  | define hget | host hget => exact .inl ⟨_, hget, rfl⟩
  | param hparam => exact .inr ⟨_, hparam, rfl⟩

/-- At `level` a binding of the checker and a definition of the survey for a name belong together: there
is none of either, or one of the nodes makes both, at the level and with the type of the binding. -/
inductive BoundAlike (types : TypeTable) (nodes : List (Int × Term)) (level : Nat) (name : String) :
    Option Binding → Option NodeId → Prop where
  | unbound : BoundAlike types nodes level name none none
  | bound {b : Binding} {d : NodeId} {node : Term} :
    ((b.level : Int), node) ∈ nodes → node.Defines types name d (b.own level) →
    BoundAlike types nodes level name (some b) (some d)

namespace BoundAlike

variable {types : TypeTable} {nodes : List (Int × Term)} {level : Nat} {name : String}

/-- Inside a quote or an escape names mean what they mean outside. -/
theorem moved {scope : Scope Binding} {d : Option NodeId} {amount : Int} {level' : Nat}
    (hlevel : (level' : Int) = level - amount) (h : BoundAlike types nodes level name (scope.lookup? name) d) :
    BoundAlike types nodes level' name ((scope.shift amount).lookup? name) d := by
  cases hmoved : (scope.shift amount).lookup? name with
  | none =>
    rw [Scope.lookup?_shift, Option.map_eq_none_iff] at hmoved
    rw [hmoved] at h
    cases h
    exact .unbound
  | some b =>
    rcases Scope.lookup?_moved hlevel hmoved with ⟨b', hb', hsame, hown⟩
    rw [hb'] at h
    cases h with
    | bound hnode hdefines =>
      rw [← hsame] at hnode
      rw [← hown] at hdefines
      exact .bound hnode hdefines

/-- A new definition is bound alike; it hides an older one, and nothing else changes. -/
theorem extend {c : Context} {Γ : Scope Binding} {scope : Scope NodeId} {new : String} {d : NodeId} {τ : Ty}
    {node : Term} (hnode : ((c.level : Int), node) ∈ nodes) (hdefines : node.Defines types new d τ)
    (hothers : BoundAlike types nodes c.level name (Γ.lookup? name) (scope.lookup? name)) :
    BoundAlike types nodes c.level name ((c.bind Γ new τ).lookup? name)
      ((scope.extend new d).lookup? name) := by
  rw [Context.bind, Scope.lookup?_extend, Scope.lookup?_extend]
  by_cases hname : new = name
  · subst hname
    rw [if_pos rfl, if_pos rfl]
    refine .bound hnode ?_
    rw [Binding.own_self]
    exact hdefines
  · rw [if_neg hname, if_neg hname]
    exact hothers

end BoundAlike

/-- Both scopes of a function's body find the same parameter for a name. -/
theorem newest?_params {p : Prelude} {node : NodeId} {params : List Param} {bound : List (String × Ty)}
    (h : p.paramRule node params = .ok bound) (name : String) :
    (Scope.newest? name bound.reverse = none ∧
        Scope.newest? name (params.map fun param => (param.name, param.id)).reverse = none) ∨
      ∃ param ∈ params, param.name = name ∧ (∃ τ, Scope.newest? name bound.reverse = some τ) ∧
        Scope.newest? name (params.map fun param => (param.name, param.id)).reverse = some param.id := by
  have hnames : List.Forall₂ (fun (param : Param) (b : String × Ty) => b.1 = param.name) params bound := by
    refine (mapM_eq_ok.1 h).imp fun param b hb => ?_
    split at hb
    · rcases Except.bind_eq_ok.1 hb with ⟨τ, -, hτ⟩
      cases hτ
      rfl
    · cases hb
      rfl
  rw [← List.map_reverse]
  have hreversed := List.rel_reverse hnames
  have hmem : ∀ param, param ∈ params.reverse → param ∈ params := fun param => List.mem_reverse.1
  generalize params.reverse = ps at hreversed hmem
  generalize bound.reverse = bs at hreversed
  induction hreversed with
  | nil => exact .inl ⟨rfl, rfl⟩
  | @cons param b ps bs hb _ ih =>
    rcases List.forall_mem_cons.1 hmem with ⟨hhead, htail⟩
    by_cases hname : param.name = name
    · have hname' : b.1 = name := hb.trans hname
      exact .inr ⟨param, hhead, hname, ⟨b.2, by simp [Scope.newest?, hname']⟩,
        by simp [Scope.newest?, hname]⟩
    · have hname' : ¬ b.1 = name := fun heq => hname (hb.symm.trans heq)
      simpa [Scope.newest?, hname, hname'] using ih htail

/-! ## Walking in step -/

section InStep

variable (p : Prelude) (types : TypeTable) (nodes : List (Int × Term)) (name : String)

/-- The checker and the survey come to a term of the program, and a name is bound alike for both. -/
structure InStep (c : Context) (position : Position) (scope : Scope NodeId) (t : Term) (j : Judgement)
    (log : Log) : Prop where
  judged : Judged p c t j log
  recorded : ∀ e ∈ log, types.get? e.1 = some e.2
  listed : t.nodesAt c.level ⊆ nodes
  kept : ∀ node ∈ t.nodes, name ∉ node.leaked
  height : position.fragments.length = c.level
  alike : BoundAlike types nodes c.level name (c.scope.lookup? name) (scope.lookup? name)

end InStep

namespace InStep

variable {p : Prelude} {types : TypeTable} {nodes : List (Int × Term)} {name : String}
  {c c' : Context} {position position' : Position} {scope scope' : Scope NodeId} {t u : Term}
  {j j' : Judgement} {log below : Log}

theorem self_mem (h : InStep p types nodes name c position scope t j log) :
    ((c.level : Int), t) ∈ nodes := by
  refine h.listed ?_
  rw [nodesAt_eq]
  exact List.mem_cons_self

theorem get?_self (h : InStep p types nodes name c position scope t j log) :
    types.get? t.id = some j := h.recorded _ h.judged.mem_log

/-- What is left to show for a part of a term. -/
theorem part (h : InStep p types nodes name c position scope t j log) (hu : u ∈ t.children)
    (hjudged : Judged p c' u j' below) (hbelow : below ⊆ log)
    (hlevel : (c'.level : Int) = t.levelBelow c.level) (hheight : position'.fragments.length = c'.level)
    (halike : BoundAlike types nodes c'.level name (c'.scope.lookup? name) (scope'.lookup? name)) :
    InStep p types nodes name c' position' scope' u j' below where
  judged := hjudged
  recorded := fun e he => h.recorded e (hbelow he)
  listed := by
    intro entry hentry
    rw [hlevel] at hentry
    exact h.listed (nodesAt_child hu c.level hentry)
  kept := forall_nodes_child h.kept hu
  height := hheight
  alike := halike

/-- A name that is kept is bound after a value as before it. -/
theorem kept_value {value : Term} (h : InStep p types nodes name c position scope t j log)
    (hv : Judged p c value j' below) (hleaked : t.leaked = value.rebinds) :
    BoundAlike types nodes c.level name (j'.scope.lookup? name) (scope.lookup? name) := by
  have hname : name ∉ value.rebinds := by
    rw [← hleaked]
    exact h.kept t t.mem_nodes_self
  rw [hv.lookup?_eq hname]
  exact h.alike

/-- After a term the name is bound alike again. -/
theorem after (h : InStep p types nodes name c position scope t j log) :
    BoundAlike types nodes c.level name (j.scope.lookup? name) ((t.scopeAfter scope).lookup? name) := by
  -- only definitions and hosts bind a name; the rest hands on what a part leaves, or the scope before it
  induction t generalizing c position scope j log with
  | seq s l r ihl ihr =>
    cases h.judged with
    | seq hl hr =>
      have hfirst : InStep p types nodes name c position scope l _ _ :=
        h.part (List.mem_pair.2 (.inl rfl)) hl (by simp) rfl h.height h.alike
      have hbetween := ihl hfirst
      have hsecond : InStep p types nodes name (c.withScope _) position (l.scopeAfter scope) r _ _ :=
        h.part (List.mem_pair.2 (.inr rfl)) hr (by simp) rfl h.height hbetween
      have hafter := ihr hsecond
      exact hafter
  | run s body ih =>
    cases h.judged with
    | run hb hrule =>
      have hbody : InStep p types nodes name c position scope body _ _ :=
        h.part (List.mem_singleton.2 rfl) hb (by simp) rfl h.height h.alike
      -- `run` leaves what its body binds
      have hafter := ih hbody
      exact hafter
  | define s new value ih =>
    have hself := h.get?_self
    cases h.judged with
    | define hv =>
      -- either this is the definition of the name, or the value has left it as it was (`kept_value`)
      have hdefines : Defines types (.define s new value) new s.id _ := .define hself
      exact .extend h.self_mem hdefines (h.kept_value hv rfl)
  | host s new written =>
    have hself := h.get?_self
    cases h.judged with
    | host hrule =>
      have hdefines : Defines types (.host s new written) new s.id _ := .host hself
      exact .extend h.self_mem hdefines h.alike
  | assign s target value ih =>
    cases h.judged with
    | assign hv hrule => exact h.kept_value hv rfl
  | held => cases h.judged
  | _ =>
    cases h.judged
    exact h.alike

/-- The parts of a term with two of them, of which the second one goes on with the scope of the first. -/
theorem both {l r : Term} {j₁ j₂ : Judgement} {log₁ log₂ : Log}
    (h : InStep p types nodes name c position scope t j log) (hchildren : t.children = [l, r])
    (hlevel : t.levelBelow c.level = c.level) (hl : Judged p c l j₁ log₁)
    (hr : Judged p (c.withScope j₁.scope) r j₂ log₂) (hbelow : log₁ ⊆ log) (hbelow' : log₂ ⊆ log) :
    InStep p types nodes name c position scope l j₁ log₁ ∧
      InStep p types nodes name (c.withScope j₁.scope) position (l.scopeAfter scope) r j₂ log₂ := by
  have hfirst : InStep p types nodes name c position scope l j₁ log₁ :=
    h.part (hchildren ▸ List.mem_pair.2 (.inl rfl)) hl hbelow hlevel.symm h.height h.alike
  refine ⟨hfirst, ?_⟩
  exact h.part (hchildren ▸ List.mem_pair.2 (.inr rfl)) hr hbelow' hlevel.symm h.height hfirst.after

/-- In the body of a function the name is bound alike. -/
theorem params_alike {s : Site} {params : List Param} {body : Term} {bound : List (String × Ty)}
    (h : InStep p types nodes name c position scope (.lambda s params body) j log)
    (hparams : p.paramRule s.id params = .ok bound) :
    BoundAlike types nodes c.level name ((c.bindAll bound).lookup? name)
      ((scope.extendAll (params.map fun param => (param.name, param.id))).lookup? name) := by
  rw [Context.bindAll, Scope.lookup?_extendAll, Scope.lookup?_extendAll, ← List.map_reverse,
    Scope.newest?_map (Binding.mk · c.level) name bound.reverse]
  rcases newest?_params hparams name with ⟨hnone, hnone'⟩ | ⟨param, hmem, rfl, ⟨τ, hτ⟩, hid⟩
  · rw [hnone, hnone']
    exact h.alike
  · rw [hτ, hid]
    refine .bound h.self_mem ?_
    exact .param hmem

/-- The checker and the survey stay in step from a node to the nodes below it, and the survey finds there
part of what it finds. -/
theorem child (h : InStep p types nodes name c position scope t j log) (hu : u ∈ t.children) :
    ∃ c' position' scope' j' below, InStep p types nodes name c' position' scope' u j' below ∧
      (c'.level : Int) = t.levelBelow c.level ∧ u.findings position' scope' ⊆ t.findings position scope := by
  cases t with
  | literal | lookup | host | held => cases hu
  | seq s l r =>
    cases h.judged with
    | seq hl hr =>
      -- the second part goes on with the scope that the first one leaves
      rcases h.both rfl rfl hl hr (by simp) (by simp) with ⟨hfirst, hsecond⟩
      rcases List.mem_pair.1 hu with rfl | rfl
      · exact ⟨_, _, _, _, _, hfirst, rfl, List.subset_append_left _ _⟩
      · exact ⟨_, _, _, _, _, hsecond, rfl, List.subset_append_right _ _⟩
  | binary s op l r =>
    cases h.judged with
    | binary hl hr hrule =>
      rcases h.both rfl rfl hl hr (by simp) (by simp) with ⟨hfirst, hsecond⟩
      rcases List.mem_pair.1 hu with rfl | rfl
      · exact ⟨_, _, _, _, _, hfirst, rfl, List.subset_append_left _ _⟩
      · exact ⟨_, _, _, _, _, hsecond, rfl, List.subset_append_right _ _⟩
  | define s new value | assign s target value =>
    cases List.mem_singleton.1 hu
    cases h.judged
    next hv =>
      -- the value is checked and surveyed in the scope of the node
      have hvalue := h.part hu hv (by simp) rfl h.height h.alike
      exact ⟨_, _, _, _, _, hvalue, rfl, List.subset_append_left _ _⟩
  | unary s op t | run s t =>
    cases List.mem_singleton.1 hu
    cases h.judged
    next hrule hv =>
      have hbody := h.part hu hv (by simp) rfl h.height h.alike
      exact ⟨_, _, _, _, _, hbody, rfl, List.Subset.refl _⟩
  | quote s label snippet body =>
    cases List.mem_singleton.1 hu
    cases h.judged with
    | quote hb =>
      -- one level more for the checker, one fragment more for the survey
      have hlevel : ((c.level + 1 : Nat) : Int) = c.level - -1 := by omega
      have hbody : InStep p types nodes name c.quoted (position.quoted s.id) scope u _ _ :=
        h.part hu hb (by simp) (Int.natCast_succ _) (congrArg (· + 1) h.height) (h.alike.moved hlevel)
      exact ⟨_, _, _, _, _, hbody, Int.natCast_succ _, List.subset_cons_self _ _⟩
  | escape s kind body =>
    cases List.mem_singleton.1 hu
    cases h.judged with
    | escape hne hb hrule =>
      -- there are as many open quotes as levels, so that one is left to escape from
      have hlevel : ((c.level - 1 : Nat) : Int) = c.level - 1 := by omega
      have hheight := h.height
      cases hfragments : position.fragments with
      | nil =>
        rw [hfragments] at hheight
        exact absurd hheight.symm hne
      | cons owner outer =>
        rw [hfragments] at hheight
        have houter : outer.length = c.level - 1 := by
          rw [← hheight]
          rfl
        have hbody : InStep p types nodes name c.escaped { position with fragments := outer } scope u _ _ :=
          h.part hu hb (by simp) hlevel houter (h.alike.moved hlevel)
        refine ⟨_, _, _, _, _, hbody, hlevel, ?_⟩
        rw [findings, hfragments]
        exact List.subset_cons_self _ _
  | lambda s params body =>
    cases List.mem_singleton.1 hu
    cases h.judged with
    | lambda hparams hb =>
      -- a function opens no fragment, and both sides bind its parameters
      have hheight : (position.called s.id).fragments.length = c.level := by
        rw [Position.fragments_called]
        exact h.height
      have hbody : InStep p types nodes name (c.withScope (c.bindAll _)) (position.called s.id)
          (scope.extendAll (params.map fun param => (param.name, param.id))) u _ _ :=
        h.part hu hb (by simp) rfl hheight (h.params_alike hparams)
      exact ⟨_, _, _, _, _, hbody, rfl, List.subset_append_right _ _⟩
  | call s callee args =>
    cases h.judged with
    | call hf ha hrule =>
      rcases List.mem_cons.1 hu with rfl | harg
      · have hcallee := h.part hu hf (by simp) rfl h.height h.alike
        exact ⟨_, _, _, _, _, hcallee, rfl, List.subset_append_left _ _⟩
      · -- arguments are checked in the scope of the call, whatever those before them bind
        rcases ha.member harg with ⟨j', below, hj', hbelow⟩
        have hmember : InStep p types nodes name c position scope u j' below :=
          h.part hu hj' (List.Subset.trans hbelow (by simp)) rfl h.height h.alike
        refine ⟨_, _, _, _, _, hmember, rfl, ?_⟩
        exact List.Subset.trans (findings_subset_findingsAll harg) (List.subset_append_right _ _)

/-- The checker and the survey come to every node in step. -/
theorem node (h : InStep p types nodes name c position scope t j log) {entry : Int × Term}
    (hentry : entry ∈ t.nodesAt c.level) :
    ∃ c' position' scope' j' below, InStep p types nodes name c' position' scope' entry.2 j' below ∧
      (c'.level : Int) = entry.1 ∧ entry.2.findings position' scope' ⊆ t.findings position scope := by
  induction t using induct_children generalizing c position scope j log with
  | step t ih =>
    rw [nodesAt_eq] at hentry
    rcases List.mem_cons.1 hentry with rfl | hentry
    · exact ⟨c, position, scope, j, log, h, rfl, List.Subset.refl _⟩
    · rcases List.mem_flatMap.1 hentry with ⟨child, hchild, hentry⟩
      rcases h.child hchild with ⟨c', position', scope', j', below, h', hlevel, hfindings⟩
      rw [← hlevel] at hentry
      obtain ⟨c'', position'', scope'', j'', below', h'', hlevel', hfindings'⟩ := ih child hchild h' hentry
      have hall := List.Subset.trans hfindings' hfindings
      exact ⟨c'', position'', scope'', j'', below', h'', hlevel', hall⟩

/-- The checker and the survey start in step. -/
theorem start (hj : Judged p {} t j log) (hids : t.ids.Nodup) (hkept : ∀ node ∈ t.nodes, name ∉ node.leaked) :
    InStep p (Table.ofList log) (t.nodesAt 0) name {} ⟨t.id, []⟩ {} t j log where
  judged := hj
  recorded := get?_ofList_log hj hids
  listed := List.Subset.refl _
  kept := hkept
  height := rfl
  alike := .unbound

end InStep

/-! ## Whole programs -/

variable {p : Prelude} {t : Term} {j : Judgement} {log : Log} {name : String}

/-- The explicit form of a program, as it elaborates: its identities are different too, and names are
looked up at their own level. -/
theorem judged_of_elaborate_explicit {supply : Supply} {e e' : Elaboration} {q : Program}
    (hids : t.allIds.Nodup) (hsupply : ∀ id ∈ t.allIds, id < supply.next) (he : p.elaborate t = .ok e)
    (hq : Program.makeExplicit ⟨t, supply⟩ e.table = .ok q) (he' : p.elaborate q.root = .ok e') :
    ∃ j log, Judged p {} q.root j log ∧ e'.table = Table.ofList log ∧
      OwnLevels (Table.ofList log) 0 q.root ∧ q.root.allIds.Nodup := by
  have hsub := t.ids_sublist_allIds
  rcases judged_of_makeExplicit (hsub.nodup hids) (fun id hid => hsupply id (hsub.subset hid)) he hq with
    ⟨j, log, hj, hown⟩
  have hsame := he'.symm.trans (elaborate_eq_ok_iff.2 ⟨j, log, hj, rfl⟩)
  cases hsame
  exact ⟨j, log, hj, rfl, hown, nodup_allIds_of_run (run_of_makeExplicit hq) hids hsupply⟩

/-- Where a name is looked up at its own level, the checker and the survey have found the same definition
for it, at the type of the lookup. -/
theorem lookup_alike (hj : Judged p {} t j log) (hids : t.allIds.Nodup)
    (hown : OwnLevels (Table.ofList log) 0 t) (hkept : ∀ node ∈ t.nodes, name ∉ node.leaked)
    {level : Int} {s : Site} (hs : (level, .lookup s name) ∈ t.nodesAt 0) :
    ∃ k, (Table.ofList log).get? s.id = some k ∧
      ((k.scope.lookup? name = none ∧ t.survey.uses.get? s.id = none ∧ p.intrinsics.get? name = some k.type) ∨
        ∃ binding d node, k.scope.lookup? name = some binding ∧ t.survey.uses.get? s.id = some d ∧
          (level, node) ∈ t.nodesAt 0 ∧ node.Defines (Table.ofList log) name d k.type) := by
  have hstart := InStep.start hj (t.ids_sublist_allIds.nodup hids) hkept
  rcases hstart.node hs with ⟨c, position, scope, k, below, hstep, hlevel, hfindings⟩
  have hk : (Table.ofList log).get? s.id = some k := hstep.get?_self
  have huse : t.survey.uses.get? s.id = scope.lookup? name :=
    get?_uses_survey hids (hfindings (List.mem_singleton.2 rfl))
  have halike := hstep.alike
  refine ⟨k, hk, ?_⟩
  rw [huse]
  cases hstep.judged with
  | lookup hrule =>
    -- the checker has a binding exactly if the survey has a definition
    cases hbound : c.scope.lookup? name with
    | none =>
      rw [hbound] at halike
      -- no definition on the side of the survey: the rule for lookups fell back on an intrinsic
      generalize scope.lookup? name = d at halike
      cases halike
      exact .inl ⟨rfl, rfl, lookupRule_of_none hbound hrule⟩
    | some binding =>
      -- the binding is of the level of the lookup, by the hypothesis on levels
      have hsame : (binding.level : Int) = level := by
        rcases hown _ hs s name rfl with ⟨k', hk', hlevels⟩
        rw [hk] at hk'
        cases hk'
        exact hlevels binding hbound
      have hlevels : binding.level = c.level := by omega
      rw [hbound] at halike
      rw [lookupRule_eq_shift s.id hbound (Nat.le_of_eq hlevels), hlevels, Nat.sub_self] at hrule
      cases hrule
      generalize scope.lookup? name = d at halike
      cases halike with
      | bound hnode hdefines =>
        rw [hsame] at hnode
        have htype : binding.own c.level = binding.type.shift (0 : Nat) := by
          rw [Binding.own, hlevels, Int.sub_self]
          rfl
        rw [htype] at hdefines
        exact .inr ⟨_, _, _, rfl, rfl, hnode, hdefines⟩

/-- **The checker and the survey resolve names alike.** Let a program with different identities elaborate
and let its explicit form be split into units. For a name that no value of a definition or an assignment
binds, each lookup is linked to a definition exactly where the checker has a binding for it, and is of an
intrinsic otherwise. The definition is one of that name, and if it is not a parameter it has the type of
the lookup. -/
theorem names_resolve_alike (p : Prelude) (t : Term) (supply : Supply) (e : Elaboration) (q : Program)
    (e' : Elaboration) (b : Blueprint) (name : String) (hids : t.allIds.Nodup)
    (hsupply : ∀ id ∈ t.allIds, id < supply.next) (he : p.elaborate t = .ok e)
    (hq : Program.makeExplicit ⟨t, supply⟩ e.table = .ok q) (he' : p.elaborate q.root = .ok e')
    (hb : Blueprint.ofTerm q.root e'.table = .ok b) (hkept : ∀ node ∈ q.root.nodes, name ∉ node.leaked) :
    ∀ s, .lookup s name ∈ q.root.nodes → ∃ j, e'.table.get? s.id = some j ∧
      ((b.uses.get? s.id).isSome ↔ (j.scope.lookup? name).isSome) ∧
      (j.scope.lookup? name = none → p.intrinsics.get? name = some j.type) ∧
      ∀ d, b.uses.get? s.id = some d →
        (∃ node ∈ q.root.nodes, node.Defines e'.table name d j.type) ∧
        ∀ node ∈ q.root.nodes, node.id = d → node.tag = .define ∨ node.tag = .host →
          ∃ k, e'.table.get? d = some k ∧ k.type = j.type := by
  rcases judged_of_elaborate_explicit hids hsupply he hq he' with ⟨j, log, hj, htable, hown, hids'⟩
  rw [htable]
  have huses : b.uses = q.root.survey.uses := by
    rcases Blueprint.ofTerm_eq_ok hb with ⟨linked, hlink, huses, -⟩
    rw [huses, Survey.link_uses hlink]
  intro s hs
  rcases exists_nodesAt hs 0 with ⟨level, hlevel⟩
  rcases lookup_alike hj hids' hown hkept hlevel with
    ⟨k, hk, ⟨hnone, hnouse, hintrinsic⟩ | ⟨binding, d, node, hbound, huse, hnode, hdefines⟩⟩
  · -- an intrinsic, linked to nothing
    refine ⟨k, hk, ?_, fun _ => hintrinsic, ?_⟩
    · simp [huses, hnouse, hnone]
    · intro d hd
      rw [huses, hnouse] at hd
      cases hd
  · -- a name with a definition
    refine ⟨k, hk, ?_, ?_, ?_⟩
    · simp [huses, huse, hbound]
    · intro hnone
      rw [hbound] at hnone
      cases hnone
    · intro d' hd
      rw [huses, huse] at hd
      cases hd
      have hmem := mem_nodes_of_nodesAt hnode
      refine ⟨⟨node, hmem, hdefines⟩, ?_⟩
      intro other hother hid htag
      rcases hdefines.recorded with hget | ⟨param, hparam, hsame⟩
      · exact hget
      -- no node has the identity of a parameter
      · exact absurd (hsame.trans hid.symm) (id_ne_of_mem_params hids' hmem hother hparam)

/-- The innermost use of `x` is two quotes away from its definition, and is linked to it. -/
theorem names_resolve_alike_crossing : ∃ e q e' b j,
    Prelude.general.elaborate crossingTerm = .ok e ∧
      Program.makeExplicit ⟨crossingTerm, ⟨11⟩⟩ e.table = .ok q ∧
      Prelude.general.elaborate q.root = .ok e' ∧ Blueprint.ofTerm q.root e'.table = .ok b ∧
      .lookup ⟨9, {}⟩ "x" ∈ q.root.nodes ∧ b.uses.get? 9 = some 1 ∧ e'.table.get? 9 = some j ∧
      (j.scope.lookup? "x").isSome ∧ ∃ node ∈ q.root.nodes, node.Defines e'.table "x" 1 j.type := by
  obtain ⟨e, q, e', b, he, hq, he', hb, hkept, hmem, huse⟩ : ∃ e q e' b,
      Prelude.general.elaborate crossingTerm = .ok e ∧
        Program.makeExplicit ⟨crossingTerm, ⟨11⟩⟩ e.table = .ok q ∧
        Prelude.general.elaborate q.root = .ok e' ∧ Blueprint.ofTerm q.root e'.table = .ok b ∧
        (∀ node ∈ q.root.nodes, "x" ∉ node.leaked) ∧ .lookup ⟨9, {}⟩ "x" ∈ q.root.nodes ∧
        b.uses.get? 9 = some 1 :=
    ⟨_, _, _, _, rfl, rfl, rfl, rfl, by decide, List.mem_of_getElem? (i := 12) rfl, rfl⟩
  obtain ⟨j, hj, hsome, -, hdefinition⟩ := names_resolve_alike Prelude.general crossingTerm ⟨11⟩ e q e' b "x"
    (by decide) (allIds_lt_of_all rfl) he hq he' hb hkept _ hmem
  refine ⟨e, q, e', b, j, he, hq, he', hb, hmem, huse, hj, hsome.1 ?_, (hdefinition 1 huse).1⟩
  exact Option.isSome_of_eq_some huse

/-- `let x = (let y = 1); y`, which takes `y` from the value of `x`. -/
def leakedTerm : Term :=
  .seq ⟨0, {}⟩ (.define ⟨1, {}⟩ "x" (.define ⟨2, {}⟩ "y" (.literal ⟨3, {}⟩ (.int 1))))
    (.lookup ⟨4, {}⟩ "y")

/-- `let x = 1; let z = (let x = "s"); x`, with an older `x` for the survey to find. -/
def hiddenTerm : Term :=
  .seq ⟨0, {}⟩ (.define ⟨1, {}⟩ "x" (.literal ⟨2, {}⟩ (.int 1)))
    (.seq ⟨3, {}⟩ (.define ⟨4, {}⟩ "z" (.define ⟨5, {}⟩ "x" (.literal ⟨6, {}⟩ (.string "s"))))
      (.lookup ⟨7, {}⟩ "x"))

/-- Of a name that the value of a definition binds, the checker knows a binding where the survey finds
none, or one that is an integer to the survey is a string to the checker. -/
theorem leaked_names_resolve_differently :
    (∃ e q e' b j, Prelude.general.elaborate leakedTerm = .ok e ∧
      Program.makeExplicit ⟨leakedTerm, ⟨5⟩⟩ e.table = .ok q ∧
      Prelude.general.elaborate q.root = .ok e' ∧ Blueprint.ofTerm q.root e'.table = .ok b ∧
      .lookup ⟨4, {}⟩ "y" ∈ q.root.nodes ∧ e'.table.get? 4 = some j ∧
      (j.scope.lookup? "y").isSome ∧ b.uses.get? 4 = none) ∧
    ∃ e q e' b j k, Prelude.general.elaborate hiddenTerm = .ok e ∧
      Program.makeExplicit ⟨hiddenTerm, ⟨8⟩⟩ e.table = .ok q ∧
      Prelude.general.elaborate q.root = .ok e' ∧ Blueprint.ofTerm q.root e'.table = .ok b ∧
      .lookup ⟨7, {}⟩ "x" ∈ q.root.nodes ∧ b.uses.get? 7 = some 1 ∧
      e'.table.get? 7 = some j ∧ e'.table.get? 1 = some k ∧ j.type = .string ∧ k.type = .int := by
  constructor
  · exact ⟨_, _, _, _, _, rfl, rfl, rfl, rfl, List.mem_of_getElem? (i := 4) rfl, rfl, rfl, rfl⟩
  · exact ⟨_, _, _, _, _, _, rfl, rfl, rfl, rfl, List.mem_of_getElem? (i := 7) rfl, rfl, rfl, rfl, rfl, rfl⟩

end Multistage
