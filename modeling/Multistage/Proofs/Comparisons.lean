import Multistage.Proofs.ExplicitReferences
import Multistage.Proofs.Findings
import Multistage.Session.Memo

/-!
# Values that count as the same

A stage that comes to the same value as before counts as unchanged. Doubles are compared as numbers there, so
that the two zeros count as the same and may still be told apart in a program. Where this does not happen
(`Apart`), values that count as the same are equal.

* `Term.eq_of_same` and `Blueprint.eq_of_same`, for what stages come to;
* `Term.Written.makeExplicit` and `Blueprint.written_ofTerm`: the stages write no other doubles than those of
  the program.
-/

namespace Multistage

/-- Doubles of a kind are told apart by comparing them as numbers. -/
def Apart (good : Float → Prop) : Prop := ∀ x y, good x → good y → (x == y) = true → x = y

/-- A term has doubles of a kind only. -/
def Term.Written (good : Float → Prop) (t : Term) : Prop :=
  ∀ node ∈ t.nodes, ∀ s x, node = .literal s (.float x) → good x

variable {good : Float → Prop}

/-! ## Terms -/

namespace Term

variable {t u : Term}

theorem Written.child (h : t.Written good) (hu : u ∈ t.children) : u.Written good := forall_nodes_child h hu

theorem Written.float {s : Site} {x : Float} (h : (literal s (.float x)).Written good) : good x :=
  h _ (mem_nodes_self _) s x rfl

/-- A node that is no double keeps to the condition if its parts do. -/
theorem written_of_children (hnode : ∀ s x, t ≠ .literal s (.float x))
    (h : ∀ child ∈ t.children, child.Written good) : t.Written good := by
  intro node hmem s x heq
  rw [nodes_eq] at hmem
  rcases List.mem_cons.1 hmem with rfl | hmem
  · exact absurd heq (hnode s x)
  · rcases List.mem_flatMap.1 hmem with ⟨child, hchild, hmem⟩
    exact h child hchild node hmem s x heq

theorem same_eq (t u : Term) : t.same u = (t.sameNode u && allMatch (t.children.map same) u.children) := by
  rw [same, fold_eq]

/-- Literals that compare equal are equal, if comparing doubles tells them apart. -/
theorem eq_of_sameLiteral (hgood : Apart good) {s s' : Site} {a b : Literal} (ha : (literal s a).Written good)
    (hb : (literal s' b).Written good) (h : a.same b = true) : a = b := by
  unfold Literal.same at h
  split at h
  · exact congrArg Literal.int (of_decide_eq_true h)
  · exact congrArg Literal.float (hgood _ _ ha.float hb.float h)
  · exact congrArg Literal.string (of_decide_eq_true h)
  · cases h

/-- Nodes that agree in all but their children differ in their children only. -/
theorem eq_withChildren_of_sameNode (hgood : Apart good) (ht : t.Written good) (hu : u.Written good)
    (h : t.sameNode u = true) : u = t.withChildren u.children := by
  unfold sameNode at h
  rcases Bool.and_eq_true_iff.1 h with ⟨hsites, hnode⟩
  have hsite : t.site = u.site := of_decide_eq_true hsites
  -- nodes of different kinds do not agree
  cases t <;> cases u
  all_goals try cases hnode
  case literal.literal s a s' b =>
    cases hsite
    cases eq_of_sameLiteral hgood ht hu hnode
    rfl
  all_goals simp_all [site, withChildren, children]

/-- Lists of terms that compare equal are equal if their members are. -/
theorem eq_of_allMatch {ts us : List Term} (h : allMatch (ts.map same) us = true)
    (ih : ∀ t ∈ ts, ∀ u ∈ us, t.same u = true → t = u) : ts = us := by
  induction ts generalizing us with
  | nil =>
    cases us with
    | nil => rfl
    | cons => cases h
  | cons t rest ihrest =>
    cases us with
    | nil => cases h
    | cons u us =>
      rcases Bool.and_eq_true_iff.1 h with ⟨hhead, hrest⟩
      rw [ih t List.mem_cons_self u List.mem_cons_self hhead, ihrest hrest fun t ht u hu =>
        ih t (List.mem_cons_of_mem _ ht) u (List.mem_cons_of_mem _ hu)]

/-- Terms that count as the same are equal. -/
theorem eq_of_same (hgood : Apart good) (ht : t.Written good) (hu : u.Written good) (h : t.same u = true) :
    t = u := by
  induction t using induct_children generalizing u with
  | step t ih =>
    rw [same_eq] at h
    rcases Bool.and_eq_true_iff.1 h with ⟨hnode, hchildren⟩
    have hequal : t.children = u.children := eq_of_allMatch hchildren fun child hchild other hother hsame =>
      ih child hchild (ht.child hchild) (hu.child hother) hsame
    rw [eq_withChildren_of_sameNode hgood ht hu hnode, ← hequal, withChildren_children]

/-! ## Explicit references -/

/-- New parts that keep to the condition can be put into a node. -/
theorem Written.withChildren {ts : List Term} (ht : t.Written good) (hlength : ts.length = t.children.length)
    (h : ∀ u ∈ ts, u.Written good) : (t.withChildren ts).Written good := by
  by_cases hleaf : ∃ s x, t = .literal s (.float x)
  · rcases hleaf with ⟨s, x, rfl⟩
    exact ht
  · refine written_of_children (fun s x heq => hleaf ⟨s, x, ?_⟩) ?_
    · -- only a literal is rebuilt to a literal
      have htag := congrArg tag heq
      rw [tag_withChildren] at htag
      cases t <;> cases htag
      exact heq
    · rw [children_withChildren hlength]
      exact h

/-- Escapes around a term bring no doubles. -/
theorem written_persistTimes {count : Nat} {t' : Term} {u u' : Supply} (ht : t.Written good)
    (h : (t.persistTimes count).run u = .ok (t', u')) : t'.Written good := by
  induction count generalizing t' u' with
  | zero =>
    cases h
    exact ht
  | succ count ih =>
    rw [persistTimes] at h
    rcases run_bind_eq_ok.1 h with ⟨inner, u₁, hinner, h₁⟩
    rcases run_bind_eq_ok.1 h₁ with ⟨id, u₂, -, h₂⟩
    cases h₂
    refine written_of_children (fun _ _ heq => by cases heq) ?_
    exact List.forall_mem_singleton.2 (ih hinner)

/-- What becomes of terms of which each is made explicit. -/
theorem written_mapM {types : TypeTable} {level : Nat} {ts ts' : List Term} {u u' : Supply}
    (h : (ts.mapM fun t : Term => t.explicitAt types level).run u = .ok (ts', u'))
    (ih : ∀ t ∈ ts, ∀ {t' u u'}, (t.explicitAt types level).run u = .ok (t', u') → t'.Written good) :
    ts'.length = ts.length ∧ ∀ t' ∈ ts', t'.Written good := by
  induction ts generalizing ts' u with
  | nil =>
    cases h
    exact ⟨rfl, List.forall_mem_nil _⟩
  | cons t rest ihrest =>
    rw [List.mapM_cons] at h
    rcases run_bind_eq_ok.1 h with ⟨t', u₁, hhead, h₁⟩
    rcases run_bind_eq_ok.1 h₁ with ⟨rest', u₂, htail, h₂⟩
    cases h₂
    obtain ⟨hlength, hwritten⟩ := ihrest htail fun t ht => ih t (List.mem_cons_of_mem _ ht)
    exact ⟨congrArg (· + 1) hlength, List.forall_mem_cons.2 ⟨ih t List.mem_cons_self hhead, hwritten⟩⟩

/-- Explicit references bring no doubles with them. -/
theorem Written.explicitAt {types : TypeTable} {level : Nat} {t' : Term} {u u' : Supply} (ht : t.Written good)
    (h : (t.explicitAt types level).run u = .ok (t', u')) : t'.Written good := by
  induction t using induct_children generalizing level t' u u' with
  | step t ih =>
    by_cases htag : t.tag = .lookup
    · cases t <;> cases htag
      cases explicit_of_run h with
      | lookup _ hlookup =>
        rcases explicitLookup_cases hlookup with ⟨-, rfl, -⟩ | ⟨binding, -, -, hpersist⟩
        · exact ht
        · exact written_persistTimes ht hpersist
    · rw [explicitAt_of_not_lookup htag] at h
      rcases run_bind_eq_ok.1 h with ⟨children', u₁, hchildren, hpure⟩
      cases hpure
      rcases written_mapM hchildren fun child hchild => ih child hchild (ht.child hchild) with
        ⟨hlength, hwritten⟩
      exact ht.withChildren hlength hwritten

end Term

/-! ## Units -/

/-- All values of a table have a property. -/
def Table.All {α : Type} (P : α → Prop) (table : Table α) : Prop := ∀ id a, table.get? id = some a → P a

/-- The lists of escapes of a fragment. -/
def Fragment.escapes (f : Fragment) : List (List EscapeRecord) :=
  [f.persist, f.splice, f.ownPersist, f.ownSplice, f.ownSnippet]

/-- A fragment has doubles of a kind only. -/
structure Fragment.Written (good : Float → Prop) (f : Fragment) : Prop where
  body : f.body.Written good
  escapes : ∀ l ∈ f.escapes, ∀ e ∈ l, e.body.Written good

/-- A procedure has doubles of a kind only. -/
def Procedure.Written (good : Float → Prop) (r : Procedure) : Prop := r.body.Written good

/-- The units of a program have doubles of a kind only. -/
structure Blueprint.Written (good : Float → Prop) (b : Blueprint) : Prop where
  fragments : b.fragments.All (Fragment.Written good)
  procedures : b.procedures.All (Procedure.Written good)
  main : b.main.Written good

/-- Lists are equal if they are equally long and their entries are equal one by one. -/
theorem eq_of_forall_zip {α : Type} {as bs : List α} (hlength : as.length = bs.length)
    (h : ∀ pair ∈ as.zip bs, pair.1 = pair.2) : as = bs := by
  refine List.ext_getElem hlength fun i hi hi' => ?_
  have hmem := List.getElem_mem (l := as.zip bs) (n := i) (by rw [List.length_zip]; omega)
  rw [List.getElem_zip] at hmem
  exact h _ hmem

theorem EscapeRecord.eq_of_same (hgood : Apart good) {a b : EscapeRecord} (ha : a.body.Written good)
    (hb : b.body.Written good) (h : a.same b = true) : a = b := by
  simp only [EscapeRecord.same, Bool.and_eq_true, decide_eq_true_eq] at h
  rcases h with ⟨⟨hid, howner⟩, hbody⟩
  have hbody := Term.eq_of_same hgood ha hb hbody
  cases a
  cases b
  simp_all

theorem EscapeRecord.eq_of_sameAll (hgood : Apart good) {as bs : List EscapeRecord}
    (ha : ∀ a ∈ as, a.body.Written good) (hb : ∀ b ∈ bs, b.body.Written good)
    (h : EscapeRecord.sameAll as bs = true) : as = bs := by
  rcases Bool.and_eq_true_iff.1 h with ⟨hlength, hall⟩
  refine eq_of_forall_zip (of_decide_eq_true hlength) fun pair hpair => ?_
  rcases List.of_mem_zip hpair with ⟨hleft, hright⟩
  exact EscapeRecord.eq_of_same hgood (ha _ hleft) (hb _ hright) (List.all_eq_true.1 hall pair hpair)

/-- Fragments that compare equal are equal. -/
theorem Fragment.eq_of_same (hgood : Apart good) {a b : Fragment} (ha : a.Written good) (hb : b.Written good)
    (h : a.same b = true) : a = b := by
  have hlist : ∀ {l l' : List EscapeRecord}, l ∈ a.escapes → l' ∈ b.escapes →
      EscapeRecord.sameAll l l' = true → l = l' := fun hl hl' =>
    EscapeRecord.eq_of_sameAll hgood (ha.escapes _ hl) (hb.escapes _ hl')
  simp only [Fragment.same, Bool.and_eq_true, decide_eq_true_eq] at h
  obtain ⟨⟨⟨⟨⟨⟨⟨⟨⟨⟨⟨⟨⟨hid, hbody⟩, hlabel⟩, hsnippet⟩, hparent⟩, hpersist⟩, hsplice⟩, hownPersist⟩, hownSplice⟩,
    hownSnippet⟩, hfree⟩, hbound⟩, hfills⟩, hnested⟩ := h
  replace hbody := Term.eq_of_same hgood ha.body hb.body hbody
  replace hpersist := hlist (by simp [escapes]) (by simp [escapes]) hpersist
  replace hsplice := hlist (by simp [escapes]) (by simp [escapes]) hsplice
  replace hownPersist := hlist (by simp [escapes]) (by simp [escapes]) hownPersist
  replace hownSplice := hlist (by simp [escapes]) (by simp [escapes]) hownSplice
  replace hownSnippet := hlist (by simp [escapes]) (by simp [escapes]) hownSnippet
  clear hlist ha hb
  cases a
  cases b
  simp_all only

/-- Procedures that compare equal are equal. -/
theorem Procedure.eq_of_same (hgood : Apart good) {a b : Procedure} (ha : a.Written good) (hb : b.Written good)
    (h : a.same b = true) : a = b := by
  simp only [Procedure.same, Bool.and_eq_true, decide_eq_true_eq] at h
  obtain ⟨⟨⟨⟨⟨⟨⟨hid, hbody⟩, hparams⟩, hparent⟩, hfree⟩, hbound⟩, hquotes⟩, hchildren⟩ := h
  have hbody := Term.eq_of_same hgood ha hb hbody
  cases a
  cases b
  simp_all

theorem Table.eq_of_entries {α : Type} {a b : Table α} (h : a.entries = b.entries) : a = b := by
  cases a
  cases b
  cases h
  rfl

/-- Tables that compare equal have the same keys, and are equal if their values are. -/
theorem Table.eq_of_sameBy {α : Type} {same : α → α → Bool} {a b : Table α}
    (hsame : ∀ k v, a.get? k = some v → ∀ k' w, b.get? k' = some w → same v w = true → v = w)
    (h : a.sameBy same b = true) : a = b := by
  rcases Bool.and_eq_true_iff.1 h with ⟨hkeys, hall⟩
  replace hkeys : a.keys = b.keys := of_decide_eq_true hkeys
  have hvalues : a.values = b.values := by
    refine eq_of_forall_zip ?_ fun pair hpair => ?_
    · have hlength := congrArg List.length hkeys
      simpa only [keys, values, List.length_map] using hlength
    · rcases List.of_mem_zip hpair with ⟨hleft, hright⟩
      rcases List.mem_map.1 hleft with ⟨⟨k, v⟩, hv, hleft⟩
      rcases List.mem_map.1 hright with ⟨⟨k', w⟩, hw, hright⟩
      have heq : same pair.1 pair.2 = true := List.all_eq_true.1 hall pair hpair
      rw [← hleft, ← hright] at heq ⊢
      exact hsame k v (get?_eq_some_iff.2 hv) k' w (get?_eq_some_iff.2 hw) heq
  refine eq_of_entries ?_
  calc a.entries = a.keys.zip a.values := List.zip_of_prod rfl rfl
    _ = b.keys.zip b.values := by rw [hkeys, hvalues]
    _ = b.entries := (List.zip_of_prod rfl rfl).symm

/-- Units that count as the same are equal. -/
theorem Blueprint.eq_of_same (hgood : Apart good) {a b : Blueprint} (ha : a.Written good) (hb : b.Written good)
    (h : a.same b = true) : a = b := by
  simp only [Blueprint.same, Bool.and_eq_true, decide_eq_true_eq] at h
  obtain ⟨⟨⟨⟨htypes, huses⟩, hfragments⟩, hprocedures⟩, hmain⟩ := h
  have htypes := Table.eq_of_entries htypes
  have huses := Table.eq_of_entries huses
  have hfragments := Table.eq_of_sameBy (fun k v hv k' w hw =>
    Fragment.eq_of_same hgood (ha.fragments k v hv) (hb.fragments k' w hw)) hfragments
  have hprocedures := Table.eq_of_sameBy (fun k v hv k' w hw =>
    Procedure.eq_of_same hgood (ha.procedures k v hv) (hb.procedures k' w hw)) hprocedures
  have hmain := Procedure.eq_of_same hgood ha.main hb.main hmain
  cases a
  cases b
  simp_all

/-! ## The survey of a program -/

namespace Table

variable {α : Type} {P : α → Prop} {table : Table α}

theorem All.modify (h : table.All P) (key : NodeId) {g : α → α} (hg : ∀ a, P a → P (g a)) :
    (table.modify key g).All P := by
  intro id a ha
  rw [get?_modify] at ha
  split at ha
  · rcases Option.map_eq_some_iff.1 ha with ⟨b, hb, rfl⟩
    exact hg b (h id b hb)
  · exact h id a ha

theorem All.insert (h : table.All P) (key : NodeId) {value : α} (hvalue : P value) :
    (table.insert key value).All P := by
  intro id a ha
  rw [get?_insert] at ha
  split at ha
  · cases ha
    exact hvalue
  · exact h id a ha

theorem all_empty : (empty : Table α).All P := by
  intro id a ha
  cases ha

end Table

/-- A finding has doubles of a kind only. -/
def Finding.Written (good : Float → Prop) : Finding → Prop
  | .fragment _ f => f.Written good
  | .procedure _ r => r.Written good
  | .escape _ record => record.body.Written good
  | .definition .. | .use .. | .snippet .. => True

/-- The records of a survey have doubles of a kind only. -/
structure Survey.Written (good : Float → Prop) (s : Survey) : Prop where
  fragments : s.fragments.All (Fragment.Written good)
  procedures : s.procedures.All (Procedure.Written good)

namespace Survey

variable {s : Survey}

theorem Written.changeFragment (h : s.Written good) (id : NodeId) {g : Fragment → Fragment}
    (hg : ∀ f, f.Written good → (g f).Written good) : (s.changeFragment id g).Written good :=
  ⟨h.fragments.modify id hg, h.procedures⟩

theorem Written.changeProcedure (h : s.Written good) (id : NodeId) {g : Procedure → Procedure}
    (hg : ∀ r, (g r).body = r.body) : (s.changeProcedure id g).Written good :=
  ⟨h.fragments, h.procedures.modify id fun r hr => by rwa [Procedure.Written, hg]⟩

/-- The record of an escape has the code of the escape. -/
theorem Written.addEscape (h : s.Written good) (kind : EscapeKind) {record : EscapeRecord}
    (hrecord : record.body.Written good) : (s.addEscape kind record).Written good := by
  refine h.changeFragment record.owner fun f hf => ?_
  have hlist : ∀ {l : List EscapeRecord}, l ∈ f.escapes → ∀ e ∈ l ++ [record], e.body.Written good := by
    intro l hl e he
    rcases List.mem_append.1 he with he | he
    · exact hf.escapes l hl e he
    · cases List.mem_singleton.1 he
      exact hrecord
  have hescapes := hf.escapes
  simp only [Fragment.escapes, List.forall_mem_cons] at hescapes
  rcases hescapes with ⟨hpersist, hsplice, hownPersist, hownSplice, hownSnippet, hend⟩
  cases kind
  all_goals
    refine ⟨hf.body, ?_⟩
    simp only [Fragment.escapes, List.forall_mem_cons]
  case persist =>
    exact ⟨hpersist, hsplice, hlist (by simp [Fragment.escapes]), hownSplice, hownSnippet, hend⟩
  case splice =>
    exact ⟨hpersist, hsplice, hownPersist, hlist (by simp [Fragment.escapes]), hownSnippet, hend⟩
  case snippet =>
    exact ⟨hpersist, hsplice, hownPersist, hownSplice, hlist (by simp [Fragment.escapes]), hend⟩

/-- What is written down keeps to the doubles of what is found. -/
theorem Written.note {x : Finding} (h : s.Written good) (hx : x.Written good) : (s.note x).Written good := by
  cases x with
  | definition home id =>
    -- names are entered in tables and records, whose code stays
    have hstart : Survey.Written good { s with homes := s.homes.insert id home } := ⟨h.fragments, h.procedures⟩
    cases home with
    | procedure p => exact hstart.changeProcedure p fun _ => rfl
    | fragment f => exact hstart.changeFragment f fun _ hf => ⟨hf.body, hf.escapes⟩
  | use home user definition =>
    cases definition with
    | none => exact h
    | some definition =>
      have hstart : Survey.Written good { s with uses := s.uses.insert user definition } :=
        ⟨h.fragments, h.procedures⟩
      simp only [Survey.note, use]
      split
      · exact hstart
      · cases home with
        | procedure p => exact hstart.changeProcedure p fun _ => rfl
        | fragment f => exact hstart.changeFragment f fun _ hf => ⟨hf.body, hf.escapes⟩
  | fragment position fragment =>
    have hstart : Survey.Written good { s with
        fragments := s.fragments.insert fragment.id fragment
        order := fragment.id :: s.order } := ⟨h.fragments.insert _ hx, h.procedures⟩
    simp only [Survey.note, openFragment]
    cases position.home with
    | procedure p => exact hstart.changeProcedure p fun _ => rfl
    | fragment f => exact hstart.changeFragment f fun _ hf => ⟨hf.body, hf.escapes⟩
  | snippet => exact ⟨h.fragments, h.procedures⟩
  | procedure parent procedure =>
    have hstart : Survey.Written good { s with procedures := s.procedures.insert procedure.id procedure } :=
      ⟨h.fragments, h.procedures.insert _ hx⟩
    exact hstart.changeProcedure parent fun _ => rfl
  | escape kind record => exact h.addEscape kind hx

theorem Written.noteAll {xs : List Finding} (h : s.Written good) (hxs : ∀ x ∈ xs, x.Written good) :
    (s.noteAll xs).Written good := by
  induction xs generalizing s with
  | nil => exact h
  | cons x rest ih =>
    rcases List.forall_mem_cons.1 hxs with ⟨hhead, hrest⟩
    exact ih (h.note hhead) hrest

/-- Linking holes to snippets changes no code. -/
theorem Written.link {linked : Survey} (h : s.Written good) (hlink : s.link = .ok linked) :
    linked.Written good := by
  have hprocedures : linked.procedures = s.procedures := by rw [link_eq_ok hlink]
  refine ⟨?_, hprocedures ▸ h.procedures⟩
  rw [Survey.link] at hlink
  rcases Except.bind_eq_ok.1 hlink with ⟨fragments, hfold, hpure⟩
  cases hpure
  refine foldlM_induction (P := fun fragments : Table Fragment => fragments.All (Fragment.Written good)) ?_ hfold
    h.fragments
  intro record _ first last hfirst hlinkHole
  rcases Except.bind_eq_ok.1 hlinkHole with ⟨definition, -, hassign⟩
  refine foldlM_induction (P := fun fragments : Table Fragment => fragments.All (Fragment.Written good)) ?_ hassign
    hfirst
  intro snippet _ before after hbefore hstep
  rcases assignHole_eq_ok hstep with rfl | rfl
  · exact hbefore
  · exact hbefore.modify snippet fun f hf => ⟨hf.body, hf.escapes⟩

/-- The escapes of nested fragments are escapes of the program. -/
theorem Written.collectInto {fragments : Table Fragment} (h : fragments.All (Fragment.Written good)) {f : Fragment}
    (hf : f.Written good) : (collectInto fragments f).Written good := by
  -- a list of nested escapes, whichever of the two it is
  have hnested : ∀ {own : List EscapeRecord} (list : Fragment → List EscapeRecord), own ∈ f.escapes →
      (∀ g : Fragment, list g ∈ g.escapes) →
      ∀ e ∈ own ++ (f.nested.filterMap fragments.get?).flatMap list, e.body.Written good := by
    intro own list hown hlist e he
    rcases List.mem_append.1 he with he | he
    · exact hf.escapes own hown e he
    · rcases List.mem_flatMap.1 he with ⟨g, hg, he⟩
      rcases List.mem_filterMap.1 hg with ⟨id, -, hget⟩
      exact (h id g hget).escapes _ (hlist g) e he
  have hescapes := hf.escapes
  simp only [Fragment.escapes, List.forall_mem_cons] at hescapes
  refine ⟨hf.body, ?_⟩
  simp only [Survey.collectInto, Fragment.escapes, List.forall_mem_cons]
  exact ⟨hnested Fragment.persist (by simp [Fragment.escapes]) (by simp [Fragment.escapes]),
    hnested Fragment.splice (by simp [Fragment.escapes]) (by simp [Fragment.escapes]), hescapes.2.2⟩

/-- Lists of escapes that are passed up consist of records that are there. -/
theorem Written.collect (h : s.Written good) : s.collect.Written good := by
  refine ⟨?_, h.procedures⟩
  rw [Survey.collect]
  dsimp only
  have hfragments := h.fragments
  generalize s.order = order
  generalize s.fragments = fragments at hfragments ⊢
  induction order generalizing fragments with
  | nil => exact hfragments
  | cons id rest ih => exact ih _ (hfragments.modify id fun _ hf => Written.collectInto hfragments hf)

end Survey

namespace Term

variable {position : Position} {scope : Scope NodeId} {t : Term}

theorem written_findingsAll {ts : List Term} (ih : ∀ t ∈ ts, ∀ x ∈ t.findings position scope, x.Written good) :
    ∀ x ∈ findingsAll ts position scope, x.Written good := by
  intro x hx
  rw [findingsAll_eq] at hx
  rcases List.mem_flatMap.1 hx with ⟨t, ht, hx⟩
  exact ih t ht x hx

theorem written_givenTo (definition : Option NodeId) : ∀ x ∈ t.givenTo definition, x.Written good := by
  unfold givenTo
  split
  · exact List.forall_mem_singleton.2 trivial
  · exact List.forall_mem_nil _

/-- What is found in a term is code of the term. -/
theorem Written.findings (h : t.Written good) : ∀ x ∈ t.findings position scope, x.Written good := by
  induction t generalizing position scope with
  | literal | held => exact List.forall_mem_nil _
  | seq s lhs rhs ihl ihr | binary s op lhs rhs ihl ihr =>
    exact List.forall_mem_append.2 ⟨ihl (h.child (by simp [children])), ihr (h.child (by simp [children]))⟩
  | define s name value ih =>
    exact List.forall_mem_append.2 ⟨ih (h.child (by simp [children])),
      List.forall_mem_cons.2 ⟨trivial, written_givenTo _⟩⟩
  | assign s name value ih =>
    exact List.forall_mem_append.2 ⟨ih (h.child (by simp [children])),
      List.forall_mem_cons.2 ⟨trivial, written_givenTo _⟩⟩
  | lookup => exact List.forall_mem_singleton.2 trivial
  | unary s op t ih => exact ih (h.child (by simp [children]))
  | run s t ih => exact ih (h.child (by simp [children]))
  | call s callee args ihc iha =>
    refine List.forall_mem_append.2 ⟨ihc (h.child (by simp [children])), written_findingsAll fun t ht => ?_⟩
    exact iha t ht (h.child (by simp [children, ht]))
  | host => exact List.forall_mem_singleton.2 trivial
  | quote s label snippet body ih =>
    -- a new fragment has the quoted code, and no escapes yet
    have hbody := h.child (u := body) (by simp [children])
    refine List.forall_mem_cons.2 ⟨⟨hbody, ?_⟩, ih hbody⟩
    simp [Fragment.escapes]
  | escape s kind body ih =>
    have hbody := h.child (u := body) (by simp [children])
    unfold Term.findings
    split
    · exact List.forall_mem_nil _
    · exact List.forall_mem_cons.2 ⟨hbody, ih hbody⟩
  | lambda s params body ih =>
    have hbody := h.child (u := body) (by simp [children])
    refine List.forall_mem_append.2 ⟨List.forall_mem_append.2 ⟨?_, ?_⟩, ih hbody⟩
    · -- outside quotes the function is a procedure, with its code
      unfold procedureAt
      split
      · exact List.forall_mem_singleton.2 hbody
      · exact List.forall_mem_nil _
    · exact List.forall_mem_map.2 fun _ _ => trivial

end Term

/-- The units of a program have no other doubles than the program. -/
theorem Blueprint.written_ofTerm {t : Term} {types : TypeTable} {b : Blueprint} (ht : t.Written good)
    (h : Blueprint.ofTerm t types = .ok b) : b.Written good := by
  rcases Blueprint.ofTerm_eq_ok h with ⟨linked, hlink, -, hfragments, hmain, hprocedures⟩
  have hsurvey : t.survey.Written good := by
    refine Survey.Written.noteAll ⟨Table.all_empty, ?_⟩ ht.findings
    exact Table.all_empty.insert _ ht
  have hlinked := hsurvey.link hlink
  refine ⟨hfragments ▸ hlinked.collect.fragments, ?_, hlinked.procedures _ _ hmain⟩
  rw [hprocedures]
  intro id r hr
  rw [Table.get?_erase] at hr
  split at hr
  · cases hr
  · exact hlinked.procedures id r hr

end Multistage
