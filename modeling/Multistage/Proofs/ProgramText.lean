import Multistage.Loading
import Multistage.Proofs.Supplies
import Multistage.Proofs.TermCodec

/-!
# Programs are read back from their texts

A program is a term with a supply of identities, and its text is that of the term: the supply is found
again by reserving every identity of the term.

Main results:

* `Term.of_decode?`: a term that was read nests no deeper than its text, and its numbers are in range;
* `exists_ofTerm`: the supply of a program starts right above the largest identity;
* `programs_read_back`: reading undoes writing for every `Term.Writable` term, and every term that was
  read is one.
-/

namespace Multistage

open Json

/-! ## What is read is no deeper than its text -/

namespace Json

/-- A value in an object is nested less deeply than the object. -/
theorem depth_le_of_mem_valuesOf {fields : List (String × Json)} {key : String} {value : Json}
    (h : value ∈ valuesOf fields key) : value.depth ≤ depthFields fields := by
  induction fields with
  | nil => cases h
  | cons field fields ih =>
    rw [depthFields]
    rw [valuesOf, List.filter_cons] at h
    split at h
    · rcases List.mem_cons.mp h with rfl | h
      · exact le_max_left _ _
      · exact le_max_of_le_right (ih h)
    · exact le_max_of_le_right (ih h)

theorem depth_le_of_required? {fields : List (String × Json)} {key : String} {value : Json}
    (h : required? fields key = some value) : value.depth ≤ depthFields fields := by
  rw [required?] at h
  split at h
  next value' heq =>
    cases h
    exact depth_le_of_mem_valuesOf (heq ▸ List.mem_singleton_self _)
  · cases h

theorem depth_le_of_optional? {fields : List (String × Json)} {key : String} {value : Json}
    (h : optional? fields key = some (some value)) : value.depth ≤ depthFields fields := by
  rw [optional?] at h
  split at h
  · cases h
  next value' heq =>
    cases h
    exact depth_le_of_mem_valuesOf (heq ▸ List.mem_singleton_self _)
  · cases h

theorem fields?_eq_some {j : Json} {fields : List (String × Json)} (h : j.fields? = some fields) :
    j = .object fields := by
  cases j with
  | object => exact congrArg _ (Option.some.inj h)
  | _ => cases h

theorem items?_eq_some {j : Json} {items : List Json} (h : j.items? = some items) :
    j = .array items := by
  cases j with
  | array => exact congrArg _ (Option.some.inj h)
  | _ => cases h

theorem lt_of_natBelow? {bound n : Nat} {j : Json} (h : j.natBelow? bound = some n) : n < bound := by
  simp only [natBelow?, Option.bind_eq_bind, Option.bind_eq_some_iff] at h
  obtain ⟨i, hi, h⟩ := h
  split at h
  · cases h
    omega
  · cases h

/-- Reading a list item by item makes none of them deeper. -/
theorem depthItems_le_of_mapM {α : Type} {f : α → Json} {g : Json → Option α}
    (h : ∀ j a, g j = some a → (f a).depth ≤ j.depth) {items : List Json} {as : List α}
    (has : items.mapM g = some as) : depthItems (as.map f) ≤ depthItems items := by
  induction items generalizing as with
  | nil =>
    cases has
    exact le_refl 0
  | cons item items ih =>
    simp only [List.mapM_cons, Option.bind_eq_bind, Option.bind_eq_some_iff] at has
    obtain ⟨a, ha, as', has', heq⟩ := has
    cases heq
    exact max_le_max (h item a ha) (ih has')

theorem exists_of_mem_mapM {α : Type} {g : Json → Option α} {items : List Json} {as : List α}
    (has : items.mapM g = some as) : ∀ a ∈ as, ∃ j, g j = some a := by
  induction items generalizing as with
  | nil =>
    cases has
    simp
  | cons item items ih =>
    simp only [List.mapM_cons, Option.bind_eq_bind, Option.bind_eq_some_iff] at has
    obtain ⟨a, ha, as', has', heq⟩ := has
    cases heq
    exact List.forall_mem_cons.mpr ⟨⟨item, ha⟩, ih has'⟩

end Json

theorem Json.nonNull_eq_some {field : Option Json} {j : Json} (h : nonNull field = some j) :
    field = some j := by
  rw [nonNull.eq_def] at h
  split at h
  · cases h
  · exact h

/-- A type that is read is no more deeply nested than the text that it is read from. -/
theorem TypeExpr.depth_of_decode? {fuel : Nat} {j : Json} {τ : TypeExpr}
    (h : decode? fuel j = some τ) : τ.toJson.depth ≤ j.depth := by
  induction fuel generalizing j τ with
  | zero => cases h
  | succ fuel ih =>
    unfold decode? at h
    split at h
    · obtain ⟨name, _, rfl⟩ := Option.map_eq_some_iff.mp h
      simp [toJson, depth, depthFields]
    next inner =>
      obtain ⟨σ, hσ, rfl⟩ := Option.map_eq_some_iff.mp h
      have := ih hσ
      simp only [toJson, depth, depthFields]
      omega
    next parts =>
      simp only [Option.bind_eq_bind, Option.bind_eq_some_iff] at h
      obtain ⟨fields, hfields, jparams, hjparams, items, hitems, params, hparams, jresult, hjresult,
        result, hresult, heq⟩ := h
      cases heq
      have hitems := items?_eq_some hitems
      subst hitems
      have := depthItems_le_of_mapM (fun j τ => ih) hparams
      have := depth_le_of_required? hjparams
      have := depth_le_of_required? hjresult
      have := ih hresult
      rw [fields?_eq_some hfields]
      simp only [toJson, depth, depthFields, toJsonAll_eq_map] at *
      omega
    · cases h

/-- Neither is a parameter. -/
theorem Param.depth_of_decode? {fuel : Nat} {j : Json} {p : Param} (h : decode? fuel j = some p) :
    p.toJson.depth ≤ j.depth := by
  simp only [decode?, Option.bind_eq_bind, Option.bind_eq_some_iff] at h
  obtain ⟨fields, hfields, jid, hjid, id, hid, name, hname, jtype, hjtype, h⟩ := h
  rw [fields?_eq_some hfields]
  split at h
  · cases h
    simp [toJson, ofOption, depth, depthFields, Json.ofNat, Json.ofInt]
  next type htype =>
    simp only [Option.bind_eq_some_iff] at h
    obtain ⟨τ, hτ, heq⟩ := h
    cases heq
    have hfield : optional? fields "ty" = some (some type) := by
      rw [hjtype, nonNull_eq_some htype]
    have := depth_le_of_optional? hfield
    have := TypeExpr.depth_of_decode? hτ
    simp only [toJson, ofOption, depth, depthFields, Json.ofNat, Json.ofInt]
    omega

namespace Term

/-- A literal that is read holds no infinite number. -/
theorem plain_literal {site : Site} {fields : List (String × Json)} {value : Literal}
    (h : literal? fields = some value) : (literal site value).Plain := by
  cases value with
  | int | string => trivial
  | float x =>
    simp only [literal?, Option.bind_eq_bind, Option.bind_eq_some_iff] at h
    obtain ⟨type, htype, j, hj, h⟩ := h
    split at h <;> simp only [Option.map_eq_some_iff, Literal.float.injEq, reduceCtorEq, and_false,
      exists_false, exists_eq_right] at h
    cases j with
    | number n => exact Numeral.isFinite_of_toFloat? h
    | _ => cases h

theorem depthFields_jsonFields (value : Literal) : depthFields value.jsonFields = 0 := by
  cases value with
  | int | string => rfl
  | float x =>
    have hx : (Json.ofFloat x).depth = 0 := by
      rw [Json.ofFloat]
      split <;> rfl
    simp [Literal.jsonFields, depthFields, hx, Json.depth]

/-- What is known of a node that was read from the fields of its kind, where `term` reads the children. -/
structure ReadFrom (term : Json → Option Term) (kind : List (String × Json)) (t : Term) : Prop where
  depth_le : t.toJson.depth ≤ depthFields kind + 2
  plain : t.Plain
  children : ∀ child ∈ t.children, ∃ j, term j = some child

section ReadFrom

variable {term : Json → Option Term} {kind : List (String × Json)} {t : Term}

theorem ReadFrom.leaf (hplain : t.Plain) (hchildren : t.children = [])
    (hdepth : t.toJson.depth ≤ depthFields kind + 2) : ReadFrom term kind t :=
  ⟨hdepth, hplain, by simp [hchildren]⟩

variable (hterm : ∀ j t, term j = some t → t.toJson.depth ≤ j.depth)
include hterm

/-- A node with one part is read from the field of that part. -/
theorem ReadFrom.one {u : Term} {j : Json} {key : String} (hj : required? kind key = some j)
    (hu : term j = some u) (hplain : t.Plain) (hchildren : t.children = [u])
    (hdepth : t.toJson.depth = u.toJson.depth + 2) : ReadFrom term kind t := by
  have := hterm j u hu
  have := depth_le_of_required? hj
  refine ⟨by omega, hplain, ?_⟩
  rw [hchildren, List.forall_mem_singleton]
  exact ⟨j, hu⟩

/-- A node with two parts is read from their two fields. -/
theorem ReadFrom.two {l r : Term} {jl jr : Json} {left right : String}
    (hjl : required? kind left = some jl) (hl : term jl = some l)
    (hjr : required? kind right = some jr) (hr : term jr = some r) (hplain : t.Plain)
    (hchildren : t.children = [l, r])
    (hdepth : t.toJson.depth = max l.toJson.depth r.toJson.depth + 2) : ReadFrom term kind t := by
  have := hterm jl l hl
  have := hterm jr r hr
  have := depth_le_of_required? hjl
  have := depth_le_of_required? hjr
  refine ⟨by omega, hplain, ?_⟩
  rw [hchildren, List.forall_mem_cons, List.forall_mem_singleton]
  exact ⟨⟨jl, hl⟩, jr, hr⟩

/-- Every node is read from the fields that its kind asks for, and its parts from values of these fields. -/
theorem readFrom_of_ofKind? {depth : Nat} {site : Site} (h : ofKind? term depth site kind = some t) :
    ReadFrom term kind t := by
  simp only [ofKind?, Option.bind_eq_bind, Option.bind_eq_some_iff] at h
  obtain ⟨tag, htag, h⟩ := h
  split at h
  · -- a literal
    simp only [Option.bind_eq_some_iff] at h
    obtain ⟨value, hvalue, heq⟩ := h
    cases heq
    refine .leaf (plain_literal hvalue) rfl ?_
    rw [toJson, depth_nodeJson, depthFields_jsonFields]
    omega
  · -- a sequence
    simp only [Option.bind_eq_some_iff] at h
    obtain ⟨l, ⟨jl, hjl, hl⟩, r, ⟨jr, hjr, hr⟩, heq⟩ := h
    cases heq
    exact .two hterm hjl hl hjr hr trivial rfl (by simp [toJson, depthFields])
  · -- a definition
    simp only [Option.bind_eq_some_iff] at h
    obtain ⟨name, hname, u, ⟨j, hj, hu⟩, heq⟩ := h
    cases heq
    exact .one hterm hj hu trivial rfl (by simp [toJson, depthFields, Json.depth])
  · -- an assignment
    simp only [Option.bind_eq_some_iff] at h
    obtain ⟨name, hname, u, ⟨j, hj, hu⟩, heq⟩ := h
    cases heq
    exact .one hterm hj hu trivial rfl (by simp [toJson, depthFields, Json.depth])
  · -- a name
    simp only [Option.bind_eq_some_iff] at h
    obtain ⟨name, hname, heq⟩ := h
    cases heq
    exact .leaf trivial rfl (by simp [toJson, depthFields, Json.depth])
  · -- a negation
    simp only [Option.bind_eq_some_iff] at h
    obtain ⟨jop, hjop, op, hop, u, ⟨j, hj, hu⟩, heq⟩ := h
    cases heq
    exact .one hterm hj hu trivial rfl (by simp [toJson, depthFields, Json.depth])
  · -- an operation on two terms
    simp only [Option.bind_eq_some_iff] at h
    obtain ⟨jop, hjop, op, hop, l, ⟨jl, hjl, hl⟩, r, ⟨jr, hjr, hr⟩, heq⟩ := h
    cases heq
    exact .two hterm hjl hl hjr hr trivial rfl (by simp [toJson, depthFields, Json.depth])
  · -- a quote
    simp only [Option.bind_eq_some_iff] at h
    obtain ⟨label, hlabel, snippet, hsnippet, u, ⟨j, hj, hu⟩, heq⟩ := h
    cases heq
    exact .one hterm hj hu trivial rfl (by cases label <;> simp [toJson, depthFields, ofOption, Json.depth])
  · -- an escape
    simp only [Option.bind_eq_some_iff] at h
    obtain ⟨jkind, hjkind, kind, hkind, u, ⟨j, hj, hu⟩, heq⟩ := h
    cases heq
    exact .one hterm hj hu trivial rfl (by simp [toJson, depthFields, Json.depth])
  · -- a run
    simp only [Option.bind_eq_some_iff] at h
    obtain ⟨u, ⟨j, hj, hu⟩, heq⟩ := h
    cases heq
    exact .one hterm hj hu trivial rfl (by simp [toJson, depthFields])
  · -- a function
    simp only [Option.bind_eq_some_iff] at h
    obtain ⟨jparams, hjparams, items, hitems, params, hparams, u, ⟨j, hj, hu⟩, heq⟩ := h
    cases heq
    cases items?_eq_some hitems
    have := depthItems_le_of_mapM (fun j p => Param.depth_of_decode?) hparams
    have := depth_le_of_required? hjparams
    have := hterm j u hu
    have := depth_le_of_required? hj
    refine ⟨?_, trivial, List.forall_mem_singleton.mpr ⟨j, hu⟩⟩
    simp only [toJson, depth_nodeJson, depthFields, Json.depth] at *
    omega
  · -- a call
    simp only [Option.bind_eq_some_iff] at h
    obtain ⟨u, ⟨j, hj, hu⟩, jargs, hjargs, items, hitems, args, hargs, heq⟩ := h
    cases heq
    cases items?_eq_some hitems
    have := depthItems_le_of_mapM hterm hargs
    have := depth_le_of_required? hjargs
    have := hterm j u hu
    have := depth_le_of_required? hj
    refine ⟨?_, trivial, List.forall_mem_cons.mpr ⟨⟨j, hu⟩, exists_of_mem_mapM hargs⟩⟩
    simp only [toJson, toJsonAll_eq_map, depth_nodeJson, depthFields, Json.depth] at *
    omega
  · -- a name of the host
    simp only [Option.bind_eq_some_iff] at h
    obtain ⟨name, hname, j, hj, type, htype, heq⟩ := h
    cases heq
    have := TypeExpr.depth_of_decode? htype
    have := depth_le_of_required? hj
    refine .leaf trivial rfl ?_
    simp only [toJson, depth_nodeJson, depthFields, Json.depth]
    omega
  · -- a held value
    simp only [Option.bind_eq_some_iff] at h
    obtain ⟨j, hj, index, hindex, heq⟩ := h
    cases heq
    exact .leaf (lt_of_natBelow? hindex) rfl (by simp [toJson, depthFields, Json.ofNat, Json.ofInt, Json.depth])
  · cases h

end ReadFrom

/-- A term that was read is no deeper than its text, and its numbers are in range. -/
theorem of_decode? {fuel : Nat} {j : Json} {t : Term} (h : decode? fuel j = some t) :
    t.toJson.depth ≤ j.depth ∧ ∀ node ∈ t.nodes, node.Plain := by
  induction fuel generalizing j t with
  | zero => cases h
  | succ fuel ih =>
    simp only [decode?, Option.bind_eq_bind, Option.bind_eq_some_iff] at h
    obtain ⟨fields, hfields, site, hsite, jkind, hjkind, kind, hkind, h⟩ := h
    -- Reading a node needs the depth of its children, so both halves go through one induction.
    have hread := readFrom_of_ofKind? (fun j t ht => (ih ht).1) h
    constructor
    · have hdepth := depth_le_of_required? hjkind
      have := hread.depth_le
      rw [fields?_eq_some hkind] at hdepth
      rw [fields?_eq_some hfields]
      simp only [Json.depth] at hdepth ⊢
      omega
    · rw [nodes_eq, List.forall_mem_cons]
      refine ⟨hread.plain, fun node hnode => ?_⟩
      obtain ⟨child, hchild, hnode⟩ := List.mem_flatMap.mp hnode
      obtain ⟨j, hj⟩ := hread.children child hchild
      exact (ih hj).2 node hnode

end Term

/-! ## The supply of a program -/

/-- The supply of a program starts right above the largest identity. -/
theorem exists_ofTerm {t : Term} (h : ∀ id ∈ t.allIds, id < NodeId.last) :
    ∃ top ∈ t.allIds, (∀ id ∈ t.allIds, id ≤ top) ∧
      ∃ program, Program.ofTerm t = .ok program ∧ program.root = t ∧
        program.supply.next.toNat = top.toNat + 1 := by
  obtain ⟨s, hs, _, habove, hreached⟩ := foldlM_reserve? h {}
  have hroot : t.id ∈ t.allIds := by
    rw [Term.allIds_eq]
    exact List.mem_cons_self
  obtain ⟨top, htop, heq⟩ : ∃ id ∈ t.allIds, s.next.toNat = id.toNat + 1 := by
    rcases hreached with hzero | hreached
    · have := habove t.id hroot
      change s.next.toNat = 0 at hzero
      omega
    · exact hreached
  refine ⟨top, htop, fun id hid => ?_, ⟨t, s⟩, ?_, rfl, heq⟩
  · have := habove id hid
    exact UInt32.le_iff_toNat_le.mpr (by omega)
  · rw [Program.ofTerm, Program.ofTerm?, hs]
    rfl

/-! ## Reading the text of a program -/

/-- A term whose text is accepted: no identity is the last one, doubles are finite, indices fit 64 bits,
and the text is not nested too deep. -/
structure Term.Writable (t : Term) : Prop where
  ids : ∀ id ∈ t.allIds, id < NodeId.last
  floats : ∀ site x, literal site (.float x) ∈ t.nodes → x.isFinite = true
  indices : ∀ site index, held site index ∈ t.nodes → index < UInt64.size
  nesting : t.toJson.depth ≤ nestingLimit

/-- A writable term whose doubles are read back is read back as a whole. -/
theorem Term.Writable.exact {t : Term} (h : t.Writable)
    (hread : ∀ site x, literal site (.float x) ∈ t.nodes → ReadsBack x) :
    ∀ node ∈ t.nodes, node.Exact := by
  intro node hnode
  cases node with
  | literal site value =>
    cases value with
    | float x => exact ⟨h.floats site x hnode, hread site x hnode⟩
    | int | string => trivial
  | held site index => exact h.indices site index hnode
  | _ => trivial

theorem Term.parse?_jsonText {t : Term} (hexact : ∀ node ∈ t.nodes, node.Exact)
    (h : t.toJson.depth ≤ nestingLimit) : Term.parse? t.jsonText = some t := by
  rw [parse?, jsonText, parse?_pretty (readable_toJson hexact), Option.bind_eq_bind, Option.bind_some,
    ofJson?, if_pos h]
  exact decode?_toJson hexact (le_refl _)

/-- A program that is read comes from a term that is parsed and has room for its identities. -/
theorem Program.ofText_eq_ok {text : String} {program : Program}
    (h : Program.ofText text = .ok program) :
    Term.parse? text = some program.root ∧ Program.ofTerm program.root = .ok program := by
  rw [ofText] at h
  split at h
  next root hroot =>
    have hprogram := h
    rw [ofTerm] at h
    split at h
    next program' hterm =>
      cases h
      rw [ofTerm?, Option.map_eq_some_iff] at hterm
      obtain ⟨supply, _, rfl⟩ := hterm
      exact ⟨hroot, hprogram⟩
    · cases h
  · cases h

/-- What has been read can be written. -/
theorem Term.writable_of_ofText {text : String} {program : Program}
    (h : Program.ofText text = .ok program) : program.root.Writable := by
  obtain ⟨hparse, hterm⟩ := Program.ofText_eq_ok h
  rw [parse?, Option.bind_eq_bind, Option.bind_eq_some_iff] at hparse
  obtain ⟨j, _, hj⟩ := hparse
  rw [ofJson?] at hj
  split at hj
  next hdepth =>
    obtain ⟨hle, hplain⟩ := of_decode? hj
    refine ⟨?_, fun site x => hplain _, fun site index => hplain _, hle.trans hdepth⟩
    rw [Program.ofTerm] at hterm
    split at hterm
    next program' hprogram =>
      rw [Program.ofTerm?, Option.map_eq_some_iff] at hprogram
      obtain ⟨supply, hsupply, _⟩ := hprogram
      exact lt_last_of_foldlM hsupply
    · cases hterm
  · cases hj

/-- A term is read back from its text, with a supply that starts right above its largest identity. This
holds of every term that was itself read from a text, where the whole program comes back. Not every double
is the one that its numeral is read as, since reading rounds twice, so that is asked of the doubles. -/
theorem programs_read_back :
    (∀ t : Term, t.Writable → (∀ site x, .literal site (.float x) ∈ t.nodes → ReadsBack x) →
      ∃ top ∈ t.allIds, (∀ id ∈ t.allIds, id ≤ top) ∧
        ∃ program, Program.ofText t.jsonText = .ok program ∧ program.root = t ∧
          program.supply.next.toNat = top.toNat + 1) ∧
    ∀ text program, Program.ofText text = .ok program → program.root.Writable ∧
      ((∀ site x, .literal site (.float x) ∈ program.root.nodes → ReadsBack x) →
        Program.ofText program.root.jsonText = .ok program) := by
  have hback : ∀ t : Term, t.Writable →
      (∀ site x, .literal site (.float x) ∈ t.nodes → ReadsBack x) →
      Program.ofText t.jsonText = Program.ofTerm t := by
    intro t ht hread
    rw [Program.ofText, Term.parse?_jsonText (ht.exact hread) ht.nesting]
  constructor
  · intro t ht hread
    rw [hback t ht hread]
    exact exists_ofTerm ht.ids
  · intro text program h
    have ht := Term.writable_of_ofText h
    refine ⟨ht, fun hread => ?_⟩
    rw [hback _ ht hread]
    exact (Program.ofText_eq_ok h).2

/-- A term with numbers at the ends of their ranges, escapes in its strings, and nested types. -/
def annotated : Term :=
  .seq ⟨0, ⟨0, 18446744073709551615⟩⟩
    (.define ⟨1, {}⟩ "a\"\\\n\x01é" (.literal ⟨2, {}⟩ (.float (-0.015625))))
    (.call ⟨4294967294, {}⟩
      (.lambda ⟨4, {}⟩
        [⟨5, "x", some (.arrow [.named "Int", .code (.named "Void")] (.code (.named "Float")))⟩,
          ⟨6, "y", none⟩]
        (.quote ⟨7, {}⟩ (some "") true (.escape ⟨8, {}⟩ .snippet (.lookup ⟨9, {}⟩ "x"))))
      [.literal ⟨10, {}⟩ (.int Int64.minValue), .held ⟨11, {}⟩ 18446744073709551615])

theorem programs_read_back_annotated : annotated.Writable ∧
    ∃ program, Program.ofText annotated.jsonText = .ok program ∧ program.root = annotated ∧
      program.supply.next.toNat = 4294967295 ∧
      Program.ofText program.root.jsonText = .ok program := by
  have hfinite : (-0.015625 : Float).isFinite = true := by decide +kernel
  have hfloat : ReadsBack (-0.015625) := by
    rw [ReadsBack]
    decide +kernel
  have hexact : ∀ node ∈ annotated.nodes, node.Exact := by
    simp [annotated, Term.nodes, Term.fold, Term.foldAll, Term.Numbers, hfinite, hfloat]
  have hwritable : annotated.Writable :=
    ⟨Term.allIds_lt_of_all rfl, fun site x h => (hexact _ h).1, fun site index h => hexact _ h,
      by decide +kernel⟩
  have hread : ∀ site x, .literal site (.float x) ∈ annotated.nodes → ReadsBack x :=
    fun site x h => (hexact _ h).2
  obtain ⟨top, htop, hmax, program, htext, hroot, hnext⟩ :=
    programs_read_back.1 annotated hwritable hread
  refine ⟨hwritable, program, htext, hroot, ?_, ?_⟩
  · -- the call has the largest identity that leaves room
    have hge : 4294967294 ≤ top.toNat := hmax 4294967294 (by decide +kernel)
    have hlt : top.toNat < 4294967295 := hwritable.ids top htop
    omega
  · exact (programs_read_back.2 _ program htext).2 (hroot ▸ hread)

end Multistage
