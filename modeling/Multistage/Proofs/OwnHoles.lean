import Multistage.Proofs.Findings

/-!
# The holes of a fragment

A fragment owns the holes of its code that are not in a nested quote, where code that an escape takes back
out of a nested quote counts again. `Term.ownHoles` reads them off the code by counting quotes and escapes,
whereas the survey lists each hole with the innermost quote that is open when it comes there. What the walk
meets of quotes and escapes is `Term.outline`, which depends on the open quotes only, and in it the holes
of a quote stand together, inside the quote.

Main statement: `Term.fragment_of_get?_survey`, the survey lists with each fragment the holes that it owns.
-/

namespace Multistage

namespace Term

/-! ## Holes that code owns -/

/-- How many quotes the parts of a node are inside code, if the node is inside `depth` of them. An escape
that is inside none leads out of the code. -/
def depthBelow : Term → (depth : Nat) → Option Nat
  | .quote .., depth => some (depth + 1)
  | .escape .., 0 => none
  | .escape .., depth + 1 => some depth
  | _, depth => some depth

/-- A hole, with the term that it holds. -/
def holeAt : Term → (depth : Nat) → List (NodeId × Term)
  | .escape site .snippet body, 0 => [(site.id, body)]
  | _, _ => []

/-- The holes of code in a part of it that is inside `depth` quotes. -/
def ownHoles : Term → (depth : Nat) → List (NodeId × Term) :=
  fold fun t below depth =>
    t.holeAt depth ++
      match t.depthBelow depth with
      | none => []
      | some inner => below.flatMap fun holes => holes inner

/-- The holes that code owns: one at the node itself, and those in its parts. -/
theorem ownHoles_eq (t : Term) (depth : Nat) :
    t.ownHoles depth = t.holeAt depth ++
      match t.depthBelow depth with
      | none => []
      | some inner => t.children.flatMap fun child => child.ownHoles inner := by
  rw [ownHoles, fold_eq]
  cases t.depthBelow depth with
  | none => rfl
  | some inner =>
    dsimp only
    rw [List.flatMap_map]

/-- The levels of nodes and their depth in code go together. -/
theorem levelBelow_of_depthBelow {t : Term} {depth inner : Nat} (h : t.depthBelow depth = some inner)
    (level : Int) : t.levelBelow (level + depth) = level + inner := by
  cases t with
  | quote =>
    obtain rfl := Option.some.inj h
    show level + depth + 1 = level + (depth + 1 : Nat)
    omega
  | escape =>
    cases depth with
    | zero => cases h
    | succ depth =>
      have hsame : depth = inner := Option.some.inj h
      rw [← hsame]
      show level + (depth + 1 : Nat) - 1 = level + depth
      omega
  | _ =>
    cases h
    rfl

theorem holeAt_eq_singleton {t : Term} {depth : Nat} {hole : NodeId × Term} (h : hole ∈ t.holeAt depth) :
    depth = 0 ∧ ∃ site, site.id = hole.1 ∧ t = .escape site .snippet hole.2 := by
  unfold holeAt at h
  split at h
  · cases List.mem_singleton.1 h
    exact ⟨rfl, _, rfl, rfl⟩
  · cases h

/-- A hole that code owns stands at the level of the code. -/
theorem mem_nodesAt_of_ownHoles {t : Term} {depth : Nat} {hole : NodeId × Term}
    (h : hole ∈ t.ownHoles depth) (level : Int) :
    ∃ site, site.id = hole.1 ∧ (level, .escape site .snippet hole.2) ∈ t.nodesAt (level + depth) := by
  induction t using induct_children generalizing depth with
  | step t ih =>
    rw [ownHoles_eq] at h
    rw [nodesAt_eq]
    rcases List.mem_append.1 h with h | h
    · rcases holeAt_eq_singleton h with ⟨rfl, site, hid, rfl⟩
      refine ⟨site, hid, List.mem_cons.2 (.inl ?_)⟩
      rw [Int.natCast_zero, Int.add_zero]
    · split at h
      · cases h
      · next inner hinner =>
        rcases List.mem_flatMap.1 h with ⟨child, hchild, h⟩
        rcases ih child hchild h with ⟨site, hid, hnode⟩
        rw [← levelBelow_of_depthBelow hinner] at hnode
        exact ⟨site, hid, List.mem_cons_of_mem _ (List.mem_flatMap.2 ⟨child, hchild, hnode⟩)⟩

end Term

/-! ## Quotes and escapes in the order of the walk -/

/-- What the walk meets of quotes and escapes. -/
inductive Mark where
  | opens (fragment : Fragment)
  | escape (kind : EscapeKind) (record : EscapeRecord)

def Finding.mark? : Finding → Option Mark
  | .fragment _ f => some (.opens f)
  | .escape kind record => some (.escape kind record)
  | _ => none

/-- A hole of the given fragment. -/
def Mark.hole? (owner : NodeId) : Mark → Option EscapeRecord
  | .escape .snippet record => if record.owner = owner then some record else none
  | _ => none

namespace Term

/-- The quotes that are open in the parts of a node, if there is a way to them. -/
def openBelow : Term → (quotes : List NodeId) → Option (List NodeId)
  | .quote site .., quotes => some (site.id :: quotes)
  | .escape .., [] => none
  | .escape .., _ :: outer => some outer
  | _, quotes => some quotes

/-- What the walk meets at a node itself. -/
def markAt : Term → (quotes : List NodeId) → List Mark
  | .quote site label snippet body, quotes =>
    [.opens { id := site.id, body, label, snippet, parent := quotes.head? }]
  | .escape site kind body, owner :: _ => [.escape kind ⟨site.id, body, owner⟩]
  | _, _ => []

/-- What the walk meets in a term, given the open quotes. -/
def outline : Term → (quotes : List NodeId) → List Mark :=
  fold fun t below quotes =>
    t.markAt quotes ++
      match t.openBelow quotes with
      | none => []
      | some inner => below.flatMap fun marks => marks inner

/-- What the walk meets: a mark at the node itself, and those in its parts. -/
theorem outline_eq (t : Term) (quotes : List NodeId) :
    t.outline quotes = t.markAt quotes ++
      match t.openBelow quotes with
      | none => []
      | some inner => t.children.flatMap fun child => child.outline inner := by
  rw [outline, fold_eq]
  cases t.openBelow quotes with
  | none => rfl
  | some inner =>
    dsimp only
    rw [List.flatMap_map]

variable {t : Term} {position : Position} {scope : Scope NodeId} {quotes : List NodeId} {id : NodeId}

/-- The quotes and escapes among the findings depend on the open quotes only. -/
theorem marks_findings : (t.findings position scope).filterMap Finding.mark? = t.outline position.fragments := by
  -- names, snippets and procedures have no mark, so what is left are the marks of the parts
  induction t generalizing position scope with
  | literal | held | lookup | host => rfl
  | seq s l r ihl ihr | binary s op l r ihl ihr =>
    rw [findings, List.filterMap_append, ihl, ihr]
    symm
    rw [outline_eq]
    exact congrArg (l.outline _ ++ ·) (List.append_nil _)
  | define s name value ih | assign s name value ih =>
    rw [findings, List.filterMap_append, ih]
    symm
    rw [outline_eq]
    exact congrArg (value.outline _ ++ ·) (filterMap_givenTo (fun _ _ => rfl) _).symm
  | unary s op t ih | run s t ih =>
    rw [findings, ih]
    symm
    rw [outline_eq]
    exact List.append_nil _
  | quote s label snippet body ih =>
    -- the quote is the first mark, and those of its body follow
    have hbody := @ih (position.quoted s.id) scope
    symm
    rw [outline_eq]
    exact congrArg (_ :: ·) ((List.append_nil _).trans hbody.symm)
  | escape s kind body ih =>
    symm
    rw [findings, outline_eq]
    cases hquotes : position.fragments with
    | nil => rfl
    | cons owner outer =>
      -- the escape is listed with its owner, and its body is walked outside the quote
      have hbody := @ih { position with fragments := outer } scope
      exact congrArg (_ :: ·) ((List.append_nil _).trans hbody.symm)
  | lambda s params body ih =>
    -- a function opens no quote, whichever unit its parameters belong to
    have hparams : (params.map fun param => Finding.definition (position.called s.id).home param.id).filterMap
        Finding.mark? = [] := by
      rw [List.filterMap_map]
      exact List.filterMap_eq_nil_iff.2 fun _ _ => rfl
    rw [findings, List.filterMap_append, List.filterMap_append, filterMap_procedureAt (fun _ _ => rfl), hparams,
      ih, Position.fragments_called]
    symm
    rw [outline_eq]
    exact List.append_nil _
  | call s callee args ihf iha =>
    have hargs : (findingsAll args position scope).filterMap Finding.mark? =
        args.flatMap fun arg => arg.outline position.fragments := by
      rw [findingsAll_eq, List.filterMap_flatMap, List.flatMap_def, List.flatMap_def]
      exact congrArg List.flatten (List.map_congr_left fun arg harg => iha arg harg)
    rw [findings, List.filterMap_append, ihf, hargs]
    symm
    rw [outline_eq]
    rfl

/-! ## The holes of a quote stand inside it -/

/-- An identity that is neither open nor that of the node is not open below it. -/
theorem not_mem_openBelow {inner : List NodeId} (h : t.openBelow quotes = some inner) (hquotes : id ∉ quotes)
    (hid : t.id ≠ id) : id ∉ inner := by
  unfold openBelow at h
  split at h
  · cases h
    exact List.not_mem_cons_of_ne_of_not_mem (Ne.symm hid) hquotes
  · cases h
  · cases h
    exact (List.ne_and_not_mem_of_not_mem_cons hquotes).2
  · cases h
    exact hquotes

/-- The hole at a node belongs to the innermost open quote. -/
theorem holes_markAt (hquotes : id ∉ quotes) : (t.markAt quotes).filterMap (Mark.hole? id) = [] := by
  unfold markAt
  split
  · rfl
  · next site kind body owner outer =>
    have hne : owner ≠ id := fun heq => hquotes (heq ▸ List.mem_cons_self)
    cases kind <;> simp [Mark.hole?, hne]
  · rfl

theorem ne_of_not_mem_ids (h : id ∉ t.ids) : t.id ≠ id ∧ ∀ child ∈ t.children, id ∉ child.ids := by
  rw [ids_eq, List.mem_cons, not_or] at h
  refine ⟨Ne.symm h.1, fun child hchild hmem => h.2 ?_⟩
  exact List.mem_flatMap.2 ⟨child, hchild, hmem⟩

/-- Where a quote is neither open nor in the term there are no holes of it. -/
theorem holes_outline_of_closed (hquotes : id ∉ quotes) (hid : id ∉ t.ids) :
    (t.outline quotes).filterMap (Mark.hole? id) = [] := by
  induction t using induct_children generalizing quotes with
  | step t ih =>
    rcases ne_of_not_mem_ids hid with ⟨hne, hchildren⟩
    rw [outline_eq, List.filterMap_append, holes_markAt hquotes, List.nil_append]
    split
    · rfl
    · next inner hinner =>
      rw [List.filterMap_flatMap, List.flatMap_eq_nil_iff]
      intro child hchild
      exact ih child hchild (not_mem_openBelow hinner hquotes hne) (hchildren child hchild)

/-- A hole as the walk lists it. -/
def holeRecord (owner : NodeId) (hole : NodeId × Term) : EscapeRecord := ⟨hole.1, hole.2, owner⟩

/-- Inside an open quote the holes listed with it are those that its code owns. -/
theorem holes_outline_of_open {inner outer : List NodeId} (hinner : id ∉ inner) (houter : id ∉ outer)
    (hid : id ∉ t.ids) :
    (t.outline (inner ++ id :: outer)).filterMap (Mark.hole? id) =
      (t.ownHoles inner.length).map (holeRecord id) := by
  induction t using induct_children generalizing inner with
  | step t ih =>
    rcases ne_of_not_mem_ids hid with ⟨hne, hchildren⟩
    rw [outline_eq, ownHoles_eq, List.filterMap_append, List.map_append]
    -- the parts stand under the same quotes, but for those of an escape from the quote itself
    have hbelow : ∀ inner' : List NodeId, id ∉ inner' →
        (t.children.flatMap fun child => child.outline (inner' ++ id :: outer)).filterMap (Mark.hole? id) =
          (t.children.flatMap fun child => child.ownHoles inner'.length).map (holeRecord id) := by
      intro inner' hinner'
      rw [List.filterMap_flatMap, List.map_flatMap, List.flatMap_def, List.flatMap_def]
      refine congrArg List.flatten (List.map_congr_left fun child hchild => ?_)
      exact ih child hchild hinner' (hchildren child hchild)
    cases t with
    | quote site label snippet body =>
      -- another quote: one more is open between the node and the quote in question
      refine congrArg ([] ++ ·) (hbelow (site.id :: inner) ?_)
      exact List.not_mem_cons_of_ne_of_not_mem (Ne.symm hne) hinner
    | escape site kind body =>
      cases inner with
      | nil =>
        -- an escape from the quote itself: a hole if it is for a snippet, and its body is outside
        have hleft : (body.outline outer).filterMap (Mark.hole? id) = [] :=
          holes_outline_of_closed houter (hchildren body (List.mem_singleton.2 rfl))
        have hmark : (Term.escape site kind body).markAt ([] ++ id :: outer) =
            [.escape kind ⟨site.id, body, id⟩] := rfl
        rw [hmark]
        simp only [openBelow, depthBelow, children, List.nil_append, List.flatMap_singleton, hleft]
        cases kind <;> simp [Mark.hole?, holeAt, holeRecord]
      | cons owner inner =>
        -- an escape from a quote further in, which owns the hole
        rcases List.ne_and_not_mem_of_not_mem_cons hinner with ⟨howner, hinner⟩
        have hmark : ((Term.escape site kind body).markAt (owner :: inner ++ id :: outer)).filterMap
            (Mark.hole? id) = [] := by
          cases kind <;> simp [markAt, Mark.hole?, Ne.symm howner]
        have hhole : (Term.escape site kind body).holeAt (owner :: inner).length = [] := by
          cases kind <;> rfl
        rw [hmark, hhole]
        exact congrArg ([] ++ ·) (hbelow inner hinner)
    | _ => exact congrArg ([] ++ ·) (hbelow inner hinner)

/-- The walk opens a fragment for each quote that it meets. -/
theorem quote_of_opens {f : Fragment} (h : Mark.opens f ∈ t.outline quotes) :
    ∃ site label snippet parent, .quote site label snippet f.body ∈ t.nodes ∧
      f = { id := site.id, body := f.body, label, snippet, parent } := by
  induction t using induct_children generalizing quotes with
  | step t ih =>
    rw [outline_eq] at h
    rcases List.mem_append.1 h with h | h
    · unfold markAt at h
      split at h
      · cases List.mem_singleton.1 h
        exact ⟨_, _, _, _, mem_nodes_self _, rfl⟩
      · cases List.mem_singleton.1 h
      · cases h
    · split at h
      · cases h
      · next inner hinner =>
        rcases List.mem_flatMap.1 h with ⟨child, hchild, h⟩
        rcases ih child hchild h with ⟨site, label, snippet, parent, hnode, hf⟩
        exact ⟨site, label, snippet, parent, nodes_child hchild hnode, hf⟩

/-- What the walk meets after it has opened a fragment: first the code of the fragment, with the holes that
this owns, and then no holes of it. -/
theorem holes_after_opens {f : Fragment} (hids : t.ids.Nodup) (hquotes : f.id ∉ quotes)
    (h : Mark.opens f ∈ t.outline quotes) :
    ∃ before after, t.outline quotes = before ++ .opens f :: after ∧
      after.filterMap (Mark.hole? f.id) = (f.body.ownHoles 0).map (holeRecord f.id) := by
  induction t using induct_children generalizing quotes with
  | step t ih =>
    rw [ids_eq, List.nodup_cons] at hids
    rcases hids with ⟨hself, hbelow⟩
    rw [outline_eq] at h ⊢
    rcases List.mem_append.1 h with h | h
    · unfold markAt at h
      split at h
      · next site label snippet body _ =>
        cases List.mem_singleton.1 h
        rw [children, List.flatMap_singleton] at hself
        -- the quote is this node: its code follows at once
        have hholes : (body.outline ([] ++ site.id :: quotes)).filterMap (Mark.hole? site.id) =
            (body.ownHoles ([] : List NodeId).length).map (holeRecord site.id) :=
          holes_outline_of_open List.not_mem_nil hquotes hself
        refine ⟨[], body.outline (site.id :: quotes) ++ [], rfl, ?_⟩
        rw [List.append_nil]
        exact hholes
      · cases List.mem_singleton.1 h
      · cases h
    · split at h
      · cases h
      · next inner hinner =>
        rcases List.mem_flatMap.1 h with ⟨child, hchild, h⟩
        -- the quote is in one of the parts, and so not the node itself
        have hmem : f.id ∈ child.ids := by
          rcases quote_of_opens h with ⟨site, label, snippet, parent, hnode, hf⟩
          rw [hf]
          exact List.mem_map_of_mem hnode
        have hne : t.id ≠ f.id := by
          intro heq
          rw [heq] at hself
          exact hself (List.mem_flatMap.2 ⟨child, hchild, hmem⟩)
        have hnodup : child.ids.Nodup := (List.nodup_flatMap.1 hbelow).1 child hchild
        obtain ⟨before, after, heq, hafter⟩ :=
          ih child hchild hnodup (not_mem_openBelow hinner hquotes hne) h
        rcases List.append_of_mem hchild with ⟨first, last, hsplit⟩
        rw [hsplit] at hbelow ⊢
        -- the parts to the right of the quote have no hole of it
        have hlast : (last.flatMap fun child => child.outline inner).filterMap (Mark.hole? f.id) = [] := by
          rw [List.filterMap_flatMap, List.flatMap_eq_nil_iff]
          intro other hother
          refine holes_outline_of_closed (not_mem_openBelow hinner hquotes hne) fun hmem' => ?_
          rw [List.flatMap_append, List.flatMap_cons] at hbelow
          have hdisjoint := List.disjoint_of_nodup_append (List.nodup_append.1 hbelow).2.1
          exact hdisjoint hmem (List.mem_flatMap.2 ⟨other, hother, hmem'⟩)
        refine ⟨t.markAt quotes ++ (first.flatMap fun child => child.outline inner) ++ before,
          after ++ last.flatMap fun child => child.outline inner, ?_, ?_⟩
        · rw [List.flatMap_append, List.flatMap_cons, heq]
          simp
        · rw [List.filterMap_append, hlast, List.append_nil]
          exact hafter

end Term

/-! ## The records of fragments -/

/-- The record `f'` is of the same code as `f`, with some more holes. -/
structure Fragment.Grown (f : Fragment) (holes : List EscapeRecord) (f' : Fragment) : Prop where
  id : f'.id = f.id
  body : f'.body = f.body
  fills : f'.fills = f.fills
  holes : f'.ownSnippet = f.ownSnippet ++ holes

namespace Fragment.Grown

variable {f f' f'' : Fragment} {holes holes' : List EscapeRecord}

/-- Nothing else in a record matters. -/
theorem same (hid : f'.id = f.id) (hbody : f'.body = f.body) (hfills : f'.fills = f.fills)
    (hholes : f'.ownSnippet = f.ownSnippet) : Grown f [] f' where
  id := hid
  body := hbody
  fills := hfills
  holes := by rw [hholes, List.append_nil]

theorem refl (f : Fragment) : Grown f [] f := .same rfl rfl rfl rfl

theorem trans (h : Grown f holes f') (h' : Grown f' holes' f'') : Grown f (holes ++ holes') f'' where
  id := h'.id.trans h.id
  body := h'.body.trans h.body
  fills := h'.fills.trans h.fills
  holes := by rw [h'.holes, h.holes, List.append_assoc]

end Fragment.Grown

namespace Survey

variable {s : Survey} {x : Finding} {id : NodeId} {f' : Fragment}

/-- A record after a change is the record before it, or what the change makes of that. -/
theorem get?_changeFragment {key : NodeId} {g : Fragment → Fragment}
    (h : (s.changeFragment key g).fragments.get? id = some f') :
    ∃ f, s.fragments.get? id = some f ∧ (f' = f ∨ id = key ∧ f' = g f) := by
  rw [changeFragment, Table.get?_modify] at h
  split at h
  · next hkey =>
    rcases Option.map_eq_some_iff.1 h with ⟨f, hf, rfl⟩
    exact ⟨f, hf, .inr ⟨hkey, rfl⟩⟩
  · exact ⟨f', h, .inl rfl⟩

/-- A change that adds no hole leaves the code and the holes of all fragments alone. -/
theorem grown_of_changeFragment {key : NodeId} {g : Fragment → Fragment}
    (h : (s.changeFragment key g).fragments.get? id = some f') (hg : ∀ f, Fragment.Grown f [] (g f)) :
    ∃ f, s.fragments.get? id = some f ∧ f.Grown [] f' := by
  rcases get?_changeFragment h with ⟨f, hf, rfl | ⟨-, rfl⟩⟩
  · exact ⟨f', hf, .refl f'⟩
  · exact ⟨f, hf, hg f⟩

/-- The new record stands in the table before that of the unit around it is changed. -/
theorem grown_of_openFragment {home : Home} {f : Fragment}
    (h : (s.openFragment home f).fragments.get? id = some f') :
    ∃ f'', (s.fragments.insert f.id f).get? id = some f'' ∧ f''.Grown [] f' := by
  unfold openFragment at h
  dsimp only at h
  split at h
  · exact ⟨f', h, .refl f'⟩
  · exact grown_of_changeFragment h fun f => .same rfl rfl rfl rfl

/-- Opening a fragment starts its record anew. -/
theorem fragment_note_opens {f : Fragment} (hx : x.mark? = some (.opens f))
    (h : (s.note x).fragments.get? f.id = some f') : f.Grown [] f' := by
  cases x with
  | fragment position g =>
    cases hx
    rcases grown_of_openFragment h with ⟨f'', hget, hgrown⟩
    rw [Table.get?_insert, if_pos rfl] at hget
    cases hget
    exact hgrown
  | _ => cases hx

/-- Any other finding adds a hole to the record of a fragment, or leaves its code and holes alone. -/
theorem fragment_note (hx : ∀ f, x.mark? = some (.opens f) → f.id ≠ id)
    (h : (s.note x).fragments.get? id = some f') :
    ∃ f, s.fragments.get? id = some f ∧ f.Grown (x.mark?.bind (Mark.hole? id)).toList f' := by
  cases x with
  | definition home d =>
    -- a name is entered in the lists of names only
    cases home with
    | procedure p => exact ⟨f', h, .refl f'⟩
    | fragment key => exact grown_of_changeFragment h fun f => .same rfl rfl rfl rfl
  | use home user definition =>
    cases definition with
    | none => exact ⟨f', h, .refl f'⟩
    | some definition =>
      unfold note use at h
      dsimp only at h
      split at h
      · exact ⟨f', h, .refl f'⟩
      · cases home with
        | procedure p => exact ⟨f', h, .refl f'⟩
        | fragment key =>
          exact grown_of_changeFragment h fun f => .same rfl rfl rfl rfl
  | snippet | procedure => exact ⟨f', h, .refl f'⟩
  | fragment position f =>
    -- another fragment is opened, which may be nested in this one
    rcases grown_of_openFragment h with ⟨f'', hget, hgrown⟩
    rw [Table.get?_insert, if_neg (hx f rfl)] at hget
    exact ⟨f'', hget, hgrown⟩
  | escape kind record =>
    rw [note, addEscape, changeFragment, Table.get?_modify] at h
    by_cases howner : id = record.owner
    · rw [if_pos howner] at h
      rcases Option.map_eq_some_iff.1 h with ⟨f, hf, rfl⟩
      refine ⟨f, hf, ?_⟩
      cases kind with
      | persist | splice => exact .same rfl rfl rfl rfl
      | snippet =>
        -- only an escape for a snippet is a hole
        have hhole : Mark.hole? id (.escape .snippet record) = some record := if_pos howner.symm
        rw [Finding.mark?, Option.bind_some, hhole]
        exact ⟨rfl, rfl, rfl, rfl⟩
    · rw [if_neg howner] at h
      -- the escape of another fragment
      have hhole : Mark.hole? id (.escape kind record) = none := by
        cases kind with
        | persist | splice => rfl
        | snippet => exact if_neg fun heq => howner heq.symm
      refine ⟨f', h, ?_⟩
      rw [Finding.mark?, Option.bind_some, hhole]
      exact .refl f'

/-- As long as its fragment is not opened again, a record collects the holes of the fragment. -/
theorem fragment_noteAll {xs : List Finding} (hxs : ∀ f, .opens f ∈ xs.filterMap Finding.mark? → f.id ≠ id)
    (h : (s.noteAll xs).fragments.get? id = some f') :
    ∃ f, s.fragments.get? id = some f ∧
      f.Grown ((xs.filterMap Finding.mark?).filterMap (Mark.hole? id)) f' := by
  induction xs generalizing s with
  | nil => exact ⟨f', h, .refl f'⟩
  | cons x rest ih =>
    have hhead : ∀ f, x.mark? = some (.opens f) → f.id ≠ id := by
      intro f hf
      exact hxs f (List.mem_filterMap.2 ⟨x, List.mem_cons_self, hf⟩)
    have hrest : ∀ f, .opens f ∈ rest.filterMap Finding.mark? → f.id ≠ id := by
      intro f hf
      rcases List.mem_filterMap.1 hf with ⟨y, hy, hmark⟩
      exact hxs f (List.mem_filterMap.2 ⟨y, List.mem_cons_of_mem _ hy, hmark⟩)
    rcases ih hrest h with ⟨f, hf, hgrown⟩
    rcases fragment_note hhead hf with ⟨f₀, hf₀, hgrown₀⟩
    have hmarks : ((x :: rest).filterMap Finding.mark?).filterMap (Mark.hole? id) =
        (x.mark?.bind (Mark.hole? id)).toList ++ (rest.filterMap Finding.mark?).filterMap (Mark.hole? id) := by
      rw [List.filterMap_filterMap, List.filterMap_filterMap, List.filterMap_cons]
      cases x.mark?.bind (Mark.hole? id) <;> rfl
    refine ⟨f₀, hf₀, ?_⟩
    rw [hmarks]
    exact hgrown₀.trans hgrown

end Survey

theorem Finding.key?_of_opens {x : Finding} {f : Fragment} (h : x.mark? = some (.opens f)) :
    x.key? = some f.id := by
  cases x with
  | fragment position g =>
    cases h
    rfl
  | _ => cases h

/-- The survey has a record for each quote only, and lists with it the holes that the quoted code owns. -/
theorem Term.fragment_of_get?_survey {t : Term} (hids : t.allIds.Nodup) {id : NodeId} {f : Fragment}
    (h : t.survey.fragments.get? id = some f) :
    ∃ site label snippet, .quote site label snippet f.body ∈ t.nodes ∧ site.id = id ∧ f.id = id ∧
      f.fills = none ∧ f.ownSnippet = (f.body.ownHoles 0).map (holeRecord id) := by
  have hkeys := nodup_keys hids ⟨t.id, []⟩ {}
  have hmarks : (t.findings ⟨t.id, []⟩ {}).filterMap Finding.mark? = t.outline [] := marks_findings
  rw [survey] at h
  generalize t.findings ⟨t.id, []⟩ {} = findings at hkeys hmarks h
  by_cases hopened : ∃ f₀, .opens f₀ ∈ t.outline [] ∧ f₀.id = id
  · rcases hopened with ⟨f₀, hmem, rfl⟩
    obtain ⟨before, after, houtline, hholes⟩ :=
      holes_after_opens (t.ids_sublist_allIds.nodup hids) List.not_mem_nil hmem
    rw [houtline] at hmarks
    -- the findings before the quote, the one that opens it, and those after it
    obtain ⟨first, second, rfl, -, hsecond⟩ := List.filterMap_eq_append_iff.1 hmarks
    obtain ⟨skipped, x, last, rfl, -, hx, hlast⟩ := List.filterMap_eq_cons_iff.1 hsecond
    rw [← List.append_assoc] at hkeys
    rw [Survey.noteAll_append, Survey.noteAll_append, Survey.noteAll_cons] at h
    have hagain : ∀ g, .opens g ∈ last.filterMap Finding.mark? → g.id ≠ f₀.id := by
      intro g hg heq
      rcases List.mem_filterMap.1 hg with ⟨y, hy, hmark⟩
      have hkey : y.key? = some f₀.id := heq ▸ Finding.key?_of_opens hmark
      exact (key?_ne_of_split (Finding.key?_of_opens hx) hkeys).2 y hy hkey
    rcases Survey.fragment_noteAll hagain h with ⟨f₁, hf₁, hgrown⟩
    have hgrown := (Survey.fragment_note_opens hx hf₁).trans hgrown
    rcases quote_of_opens hmem with ⟨site, label, snippet, parent, hnode, hf₀⟩
    have hid : f₀.id = site.id := congrArg Fragment.id hf₀
    refine ⟨site, label, snippet, ?_, hid.symm, hgrown.id, ?_, ?_⟩
    · rw [hgrown.body]
      exact hnode
    · rw [hgrown.fills, hf₀]
    · rw [hgrown.holes, hgrown.body, hlast, hholes, hf₀]
      rfl
  · -- without a quote there is no record
    have hnone : ∀ g, .opens g ∈ findings.filterMap Finding.mark? → g.id ≠ id := by
      intro g hg heq
      rw [hmarks] at hg
      exact hopened ⟨g, hg, heq⟩
    rcases Survey.fragment_noteAll hnone h with ⟨f₀, hf₀, -⟩
    cases hf₀

end Multistage
