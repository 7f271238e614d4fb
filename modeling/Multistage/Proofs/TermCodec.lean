import Multistage.Proofs.JsonText
import Multistage.Proofs.Terms
import Multistage.Term.Codec

/-!
# Terms are decoded as they are encoded

`Term.toJson` writes every field of a node, `Term.decode?` finds the fields by name and checks their
ranges. Two kinds of numbers stand in a term without a range of their own: a double, whose text must be
read as that double again, and the index of a held value, which must fit 64 bits. A node with such
numbers is `Exact`.

Main results:

* `Term.decode?_toJson_step`: a node is read by reading its children;
* `Term.decode?_toJson`: by induction on the fuel, reading undoes writing;
* `Term.readable_toJson`: the numbers that are written for a term are numbers of JSON.
-/

namespace Multistage

/-! ## Scalars -/

namespace Json

@[simp] theorem int?_ofInt (n : Int) : (ofInt n).int? = some n := Numeral.toInt?_ofInt n

theorem natBelow?_ofNat {n bound : Nat} (h : n < bound) : (ofNat n).natBelow? bound = some n := by
  simp [natBelow?, ofNat, h]

@[simp] theorem nodeId?_ofNat (id : NodeId) : (ofNat id.toNat).nodeId? = some id := by
  rw [nodeId?, natBelow?_ofNat id.toNat_lt_size, Option.map_some, UInt32.ofNat_toNat]

@[simp] theorem offset?_ofNat (position : UInt64) : (ofNat position.toNat).offset? = some position := by
  rw [offset?, natBelow?_ofNat position.toNat_lt_size, Option.map_some, UInt64.ofNat_toNat]

@[simp] theorem int64?_ofInt (n : Int64) : (ofInt n.toInt).int64? = some n := by
  have hrange : Int64.minValue.toInt ≤ n.toInt ∧ n.toInt ≤ Int64.maxValue.toInt :=
    ⟨n.minValue_le_toInt, n.toInt_le⟩
  rw [int64?, int?_ofInt, Option.bind_eq_bind, Option.bind_some, if_pos hrange, Int64.ofInt_toInt]

-- The values are variables here, so that nothing tries to evaluate the bounds on numbers.
theorem span?_object {a b : Json} {start stop : UInt64} (ha : a.offset? = some start)
    (hb : b.offset? = some stop) :
    (Json.object [("start", a), ("end", b)]).span? = some ⟨start, stop⟩ := by
  simp [span?, fields?, required?, valuesOf, ha, hb]

@[simp] theorem span?_toJson (s : Span) : s.toJson.span? = some s :=
  span?_object (offset?_ofNat s.start) (offset?_ofNat s.stop)

end Json

/-- The double is read back from the numeral that is written for it. -/
def ReadsBack (x : Float) : Prop := (Numeral.ofFloat Literal.jsonLayout x).toFloat? = some x

open Json

/-- What the doubles of a node itself are like, where its index is one of 64 bits. -/
def Term.Numbers (good : Float → Prop) : Term → Prop
  | .literal _ (.float x) => good x
  | .held _ index => index < UInt64.size
  | _ => True

/-- A node that holds no infinite number and no index beyond 64 bits. -/
abbrev Term.Plain : Term → Prop := Term.Numbers fun x => x.isFinite = true

/-- The numbers of a node itself are read as they are written. -/
abbrev Term.Exact : Term → Prop := Term.Numbers fun x => x.isFinite = true ∧ ReadsBack x

/-! ## Nesting -/

theorem Json.depth_le_depthItems {item : Json} {items : List Json} (h : item ∈ items) :
    item.depth ≤ depthItems items := by
  induction items with
  | nil => cases h
  | cons first rest ih =>
    rw [depthItems]
    rcases List.mem_cons.mp h with rfl | h
    · exact le_max_left _ _
    · exact le_max_of_le_right (ih h)

theorem TypeExpr.toJsonAll_eq_map (τs : List TypeExpr) : toJsonAll τs = τs.map toJson := by
  induction τs with
  | nil => rfl
  | cons τ τs ih => rw [toJsonAll, ih, List.map_cons]

theorem Term.toJsonAll_eq_map (ts : List Term) : toJsonAll ts = ts.map toJson := by
  induction ts with
  | nil => rfl
  | cons t ts ih => rw [toJsonAll, ih, List.map_cons]

/-! ## Reading what is written -/

theorem mapM_map_eq_some {α β : Type} {f : α → β} {g : β → Option α} {as : List α}
    (h : ∀ a ∈ as, g (f a) = some a) : (as.map f).mapM g = some as := by
  induction as with
  | nil => rfl
  | cons a as ih =>
    rw [List.map_cons, List.mapM_cons, h a List.mem_cons_self,
      ih fun a hmem => h a (List.mem_cons_of_mem _ hmem)]
    rfl

/-- A written type is read back, with fuel for its nesting. -/
theorem TypeExpr.decode?_toJson {τ : TypeExpr} {fuel : Nat} (h : τ.toJson.depth ≤ fuel) :
    TypeExpr.decode? fuel τ.toJson = some τ := by
  induction fuel generalizing τ with
  | zero => cases τ <;> simp [toJson, depth] at h
  | succ fuel ih =>
    cases τ with
    | named name => rfl
    | code inner =>
      have hinner : inner.toJson.depth ≤ fuel := by
        simpa [toJson, depth, depthFields] using h
      rw [toJson, decode?, ih hinner]
      rfl
    | arrow params result =>
      simp only [toJson, depth, depthFields, toJsonAll_eq_map, Nat.max_zero] at h
      have hresult : result.toJson.depth ≤ fuel := by omega
      have hparams : (params.map toJson).mapM (decode? fuel) = some params := by
        apply mapM_map_eq_some
        intro param hmem
        have := depth_le_depthItems (List.mem_map_of_mem (f := toJson) hmem)
        exact ih (by omega)
      rw [toJson, decode?, toJsonAll_eq_map]
      simp [fields?, items?, required?, valuesOf, hparams, ih hresult]

theorem nonNull_toJson (τ : TypeExpr) : nonNull (some τ.toJson) = some τ.toJson := by
  cases τ <;> rfl

/-- A parameter is read from its three fields. -/
theorem Param.decode?_object {a : Json} {p : Param} {fuel : Nat} (ha : a.nodeId? = some p.id)
    (htype : ∀ τ ∈ p.type, TypeExpr.decode? fuel τ.toJson = some τ) :
    Param.decode? fuel (.object [("id", a), ("name", .string p.name),
      ("ty", .ofOption (·.toJson) p.type)]) = some p := by
  obtain ⟨id, name, type⟩ := p
  cases type with
  | none => simp [decode?, fields?, text?, string?, required?, optional?, valuesOf, ofOption, nonNull, ha]
  | some τ =>
    simp [decode?, fields?, text?, string?, required?, optional?, valuesOf, ofOption, nonNull_toJson, ha,
      htype τ rfl]

theorem Param.decode?_toJson {p : Param} {fuel : Nat} (h : p.toJson.depth ≤ fuel) :
    Param.decode? fuel p.toJson = some p := by
  refine decode?_object (nodeId?_ofNat p.id) fun τ hτ => TypeExpr.decode?_toJson ?_
  simp only [toJson, Option.mem_def.mp hτ, ofOption, depth, depthFields] at h
  omega

namespace Term

theorem decode?_object {a b : Json} {site : Site} {kind : List (String × Json)} {fuel : Nat}
    (ha : a.nodeId? = some site.id) (hb : b.span? = some site.span) :
    decode? (fuel + 1) (.object [("id", a), ("span", b), ("kind", .object kind)]) =
      ofKind? (decode? fuel) (Json.object [("id", a), ("span", b), ("kind", .object kind)]).depth site
        kind := by
  rw [decode?]
  simp [fields?, site?, required?, optional?, valuesOf, ha, hb]

theorem decode?_nodeJson {site : Site} {tag : String} {fields : List (String × Json)} {fuel : Nat} :
    decode? (fuel + 1) (nodeJson site tag fields) =
      ofKind? (decode? fuel) (nodeJson site tag fields).depth site (("tag", .string tag) :: fields) :=
  decode?_object (nodeId?_ofNat site.id) (span?_toJson site.span)

@[simp] theorem depth_nodeJson (site : Site) (tag : String) (fields : List (String × Json)) :
    (nodeJson site tag fields).depth = depthFields fields + 2 := by
  simp [nodeJson, depth, depthFields, Json.ofNat, Json.ofInt, Span.toJson]

theorem float?_ofFloat {x : Float} (hfinite : x.isFinite = true) (hread : ReadsBack x) :
    (Json.ofFloat x).float? = some x := by
  rw [Json.ofFloat, if_pos hfinite]
  exact hread

theorem ofKind?_held {term : Json → Option Term} {depth : Nat} {site : Site} {a : Json} {index : Nat}
    (ha : a.natBelow? UInt64.size = some index) :
    ofKind? term depth site [("tag", .string "persist"), ("index", a)] = some (held site index) := by
  simp [ofKind?, text?, string?, required?, valuesOf, ha]

/-- A node is read by reading its children. The fuel for the types in it is the node's own nesting. -/
theorem decode?_toJson_step {t : Term} (hexact : t.Exact) (fuel : Nat) :
    decode? (fuel + 1) t.toJson = t.mapChildrenM fun child => decode? fuel child.toJson := by
  cases t with
  | literal s value =>
    rw [toJson, decode?_nodeJson]
    cases value with
    | int n =>
      -- the number is made opaque, or the reader would be run on its digits
      have hn := int64?_ofInt n
      rw [Literal.jsonFields]
      generalize Json.ofInt n.toInt = a at hn ⊢
      change (do return literal s (← a.int64?.map .int)) = some (literal s (.int n))
      rw [hn]
      rfl
    | float x =>
      -- a finite double is read back if its numeral is, which is what `Exact` asks
      have hx := float?_ofFloat hexact.1 hexact.2
      rw [Literal.jsonFields]
      generalize Json.ofFloat x = a at hx ⊢
      change (do return literal s (← a.float?.map .float)) = some (literal s (.float x))
      rw [hx]
      rfl
    | string x => rfl
  | seq | define | assign | lookup | run =>
    rw [toJson, decode?_nodeJson]
    rfl
  | unary s op t =>
    rw [toJson, decode?_nodeJson]
    cases op
    rfl
  | binary s op l r =>
    rw [toJson, decode?_nodeJson]
    cases op <;> rfl
  | quote s label snippet t =>
    rw [toJson, decode?_nodeJson]
    cases label <;> rfl
  | escape s kind t =>
    rw [toJson, decode?_nodeJson]
    cases kind <;> rfl
  | lambda s params t =>
    have hparams : (params.map Param.toJson).mapM (Param.decode? (lambda s params t).toJson.depth) =
        some params := by
      apply mapM_map_eq_some
      intro param hmem
      -- a parameter is nested less deeply than the node that it belongs to
      have hdepth := depth_le_depthItems (List.mem_map_of_mem (f := Param.toJson) hmem)
      apply Param.decode?_toJson
      rw [toJson, depth_nodeJson, depthFields, depth]
      omega
    rw [toJson] at hparams ⊢
    rw [decode?_nodeJson]
    change (do
      let params ← (params.map Param.toJson).mapM (Param.decode? _)
      return lambda s params (← decode? fuel t.toJson)) = _
    rw [hparams]
    rfl
  | call s callee args =>
    -- the arguments are a list of nodes of their own
    rw [toJson, decode?_nodeJson, toJsonAll_eq_map]
    change (do return call s (← decode? fuel callee.toJson) (← (args.map toJson).mapM (decode? fuel))) = _
    rw [List.mapM_map]
    rfl
  | host s name type =>
    -- so is the written type of a host
    have htype : TypeExpr.decode? (host s name type).toJson.depth type.toJson = some type := by
      apply TypeExpr.decode?_toJson
      rw [toJson, depth_nodeJson, depthFields, depthFields, depthFields]
      omega
    rw [toJson] at htype ⊢
    rw [decode?_nodeJson]
    change (do return host s name (← TypeExpr.decode? _ type.toJson)) = _
    rw [htype]
    rfl
  | held s index =>
    rw [toJson, decode?_nodeJson]
    exact ofKind?_held (natBelow?_ofNat hexact)

/-- A traversal that leaves each part alone leaves the node alone. -/
theorem mapChildrenM_eq_some {t : Term} {f : Term → Option Term}
    (h : ∀ child ∈ t.children, f child = some child) : t.mapChildrenM f = some t := by
  have hchildren : t.children.mapM f = some t.children := by
    have hmap := mapM_map_eq_some (f := fun child => child) h
    rwa [List.map_id'] at hmap
  rw [mapChildrenM_eq, hchildren, Option.map_eq_map, Option.map_some, withChildren_children]

/-- A part is nested less deeply than the node. -/
theorem depth_child {t child : Term} (h : child ∈ t.children) :
    child.toJson.depth < t.toJson.depth := by
  cases t with
  | literal | lookup | host | held => cases h
  | define | assign | unary | quote | escape | run | lambda =>
    cases List.mem_singleton.mp h
    simp only [toJson, depth_nodeJson, depthFields]
    omega
  | seq | binary =>
    simp only [children, List.mem_cons, List.not_mem_nil, or_false] at h
    rcases h with rfl | rfl <;>
      (simp only [toJson, depth_nodeJson, depthFields]; omega)
  | call s callee args =>
    simp only [toJson, toJsonAll_eq_map, depth_nodeJson, depthFields, depth]
    rcases List.mem_cons.mp h with rfl | h
    · omega
    · have := depth_le_depthItems (List.mem_map_of_mem (f := toJson) h)
      omega

/-- Reading undoes writing, with enough fuel for the nesting. -/
theorem decode?_toJson {t : Term} {fuel : Nat} (hexact : ∀ node ∈ t.nodes, node.Exact)
    (h : t.toJson.depth ≤ fuel) : decode? fuel t.toJson = some t := by
  induction fuel generalizing t with
  | zero => cases t <;> simp [toJson] at h
  | succ fuel ih =>
    rw [decode?_toJson_step (hexact t t.mem_nodes_self)]
    apply mapChildrenM_eq_some
    intro child hchild
    have hdepth := depth_child hchild
    exact ih (forall_nodes_child hexact hchild) (by omega)

end Term

/-! ## Numbers that can be written -/

namespace Json

attribute [simp] Readable.null Readable.bool Readable.string

@[simp] theorem readable_array {items : List Json} :
    Readable (.array items) ↔ ∀ item ∈ items, Readable item :=
  ⟨fun h => by cases h; assumption, .array⟩

@[simp] theorem readable_object_nil : Readable (.object []) := .object (by simp)

@[simp] theorem readable_object_cons {key : String} {value : Json} {fields : List (String × Json)} :
    Readable (.object ((key, value) :: fields)) ↔ Readable value ∧ Readable (.object fields) := by
  constructor
  · rintro ⟨⟩
    rename_i h
    obtain ⟨hvalue, hfields⟩ := List.forall_mem_cons.mp h
    exact ⟨hvalue, .object hfields⟩
  · rintro ⟨hvalue, ⟨⟩⟩
    rename_i h
    exact .object (List.forall_mem_cons.mpr ⟨hvalue, h⟩)

theorem readable_ofInt {n : Int} (h : n.natAbs < UInt64.size) : Readable (.ofInt n) :=
  .number (Numeral.ofInt_spelled n) (Numeral.toFloat?_ofInt_isSome h)

theorem readable_ofNat {n : Nat} (h : n < UInt64.size) : Readable (.ofNat n) :=
  readable_ofInt (by rwa [Int.natAbs_natCast])

@[simp] theorem readable_id (id : NodeId) : Readable (.ofNat id.toNat) :=
  readable_ofNat (lt_trans id.toNat_lt_size (by decide))

@[simp] theorem readable_offset (position : UInt64) : Readable (.ofNat position.toNat) :=
  readable_ofNat position.toNat_lt_size

@[simp] theorem readable_span (span : Span) : Readable span.toJson := by
  simp [Span.toJson]

end Json

mutual
theorem TypeExpr.readable : ∀ τ : TypeExpr, Readable τ.toJson
  | .named name => by simp [toJson]
  | .code inner => by simp [toJson, readable inner]
  | .arrow params result => by simpa [toJson, readable result] using readableAll params

theorem TypeExpr.readableAll : ∀ τs : List TypeExpr, ∀ j ∈ toJsonAll τs, Readable j
  | [] => by simp [toJsonAll]
  | τ :: τs => List.forall_mem_cons.mpr ⟨readable τ, readableAll τs⟩
end

theorem Param.readable (p : Param) : Readable p.toJson := by
  have htype : Readable (.ofOption (·.toJson) p.type) := by
    cases p.type with
    | none => exact .null
    | some τ => exact τ.readable
  simp [toJson, htype]

/-- The fields of a literal can be read from their text. -/
theorem Literal.readable {value : Literal} (h : ∀ x, value = .float x → ReadsBack x) :
    Readable (.object value.jsonFields) := by
  cases value with
  | int n =>
    have hn : n.toInt.natAbs < UInt64.size := by
      have hlow := n.le_toInt
      have hhigh := n.toInt_lt
      change _ < 18446744073709551616
      omega
    simp [jsonFields, readable_ofInt hn]
  | float x =>
    have hx : Readable (.ofFloat x) := by
      rw [Json.ofFloat]
      split
      · exact .number (Numeral.ofFloat_spelled _ x) (by rw [h x rfl]; rfl)
      · exact .null
    simp [jsonFields, hx]
  | string s => simp [jsonFields]

namespace Term

@[simp] theorem readable_nodeJson {site : Site} {tag : String} {fields : List (String × Json)} :
    Readable (nodeJson site tag fields) ↔ Readable (.object fields) := by
  simp [nodeJson]

/-- Every number of a term can be read from its text. -/
theorem readable_toJson {t : Term} (hexact : ∀ node ∈ t.nodes, node.Exact) : Readable t.toJson := by
  induction t using induct_children with
  | step t ih =>
    have hself := hexact t t.mem_nodes_self
    have hchild : ∀ child ∈ t.children, Readable child.toJson := by
      intro child hmem
      exact ih child hmem (forall_nodes_child hexact hmem)
    cases t with
    | literal s value =>
      rw [toJson, readable_nodeJson]
      apply Literal.readable
      -- only a double can fail to be read back, and `Exact` excludes that
      rintro x rfl
      exact hself.2
    | lookup => simp [toJson]
    | host s name type => simp [toJson, type.readable]
    | held s index => simp [toJson, readable_ofNat hself]
    | define | assign | unary | escape | run =>
      rw [children, List.forall_mem_singleton] at hchild
      simp [toJson, hchild]
    | quote s label snippet t =>
      rw [children, List.forall_mem_singleton] at hchild
      cases label <;> simp [toJson, ofOption, hchild]
    | lambda s params t =>
      rw [children, List.forall_mem_singleton] at hchild
      -- the types of parameters hold no numbers that could be too large
      have hparams : ∀ param ∈ params, Readable param.toJson := fun param _ => param.readable
      simpa [toJson, hchild] using hparams
    | seq | binary =>
      rw [children, List.forall_mem_cons, List.forall_mem_singleton] at hchild
      simp [toJson, hchild]
    | call s callee args =>
      rw [children, List.forall_mem_cons] at hchild
      simpa [toJson, toJsonAll_eq_map, hchild.1] using hchild.2

end Term

end Multistage
