import Multistage.Proofs.VariantRounds

/-!
# Escapes move with the code that they stand in

A variant has the code of a fragment and of the snippets chosen for its holes, and what is recorded of them.
The records of a snippet come behind those that are there already, in each list, and the escapes that
belonged to the snippet now belong to the fragment. Each snippet that is taken in changes the owners of all
records collected so far, so what is kept is said of every record and the fragment that it comes from
(`EscapeRecord.Relocated`, `Fragment.Gathered`).

Main statement: `escapes_move_with_code`.
-/

namespace Multistage

/-! ## Lists without repetition -/

theorem unionInto_append (list extra more : List NodeId) :
    unionInto list (extra ++ more) = unionInto (unionInto list extra) more := List.foldl_append

/-- What is added is new, and added once. -/
theorem unionInto_eq (list extra : List NodeId) :
    unionInto list extra = list ++ (extra.filter (· ∉ list)).eraseDups := by
  induction extra generalizing list with
  | nil => simp [unionInto]
  | cons id rest ih =>
    change unionInto (addNew list id) rest = _
    by_cases hmem : id ∈ list
    · rw [addNew, if_pos hmem, ih, List.filter_cons_of_neg (by simpa using hmem)]
    · have hrest : rest.filter (· ∉ list ++ [id]) = (rest.filter (· ∉ list)).filter fun other => !other == id := by
        rw [List.filter_filter]
        refine List.filter_congr fun other _ => ?_
        by_cases hother : other ∈ list <;> by_cases heq : other = id <;> simp [hother, heq]
      rw [addNew, if_neg hmem, ih, List.filter_cons_of_pos (by simpa using hmem), List.eraseDups_cons, hrest,
        List.append_assoc]
      rfl

/-! ## Records -/

/-- What has become of a record that stood in a list of some fragment, in a variant of `target` with some
choices: it is the same escape. It belongs to `target` if it did, or if it belonged to the fragment that it
comes from, and to the same fragment if that is neither `target` nor chosen. -/
structure EscapeRecord.Relocated (target : NodeId) (config : List NodeId) (origin : NodeId × EscapeRecord)
    (r : EscapeRecord) : Prop where
  id : r.id = origin.2.id
  body : r.body = origin.2.body
  moved : origin.2.owner = target ∨ origin.2.owner = origin.1 → r.owner = target
  left : origin.2.owner ≠ target → origin.2.owner ∉ config → r.owner = origin.2.owner

/-- A record whose owner is `source` is given to `target`. -/
def EscapeRecord.rehomed (source target : NodeId) (r : EscapeRecord) : EscapeRecord :=
  if r.owner = source then { r with owner := target } else r

namespace EscapeRecord

variable {source target : NodeId} {config : List NodeId} {origin : NodeId × EscapeRecord} {r : EscapeRecord}

theorem rehome_eq (source target : NodeId) (records : List EscapeRecord) :
    rehome source target records = records.map (rehomed source target) := rfl

theorem owner_rehomed : (r.rehomed source target).owner = if r.owner = source then target else r.owner := by
  unfold rehomed
  split <;> rfl

theorem id_rehomed : (r.rehomed source target).id = r.id := by
  unfold rehomed
  split <;> rfl

theorem body_rehomed : (r.rehomed source target).body = r.body := by
  unfold rehomed
  split <;> rfl

/-- A record that is there already, when one more snippet is taken in. -/
theorem Relocated.rehomed (h : Relocated target config origin r) (source : NodeId) :
    Relocated target (config ++ [source]) origin (r.rehomed source target) := by
  refine ⟨id_rehomed.trans h.id, body_rehomed.trans h.body, ?_, ?_⟩
  · intro howner
    rw [owner_rehomed, h.moved howner, ite_self]
  · intro htarget hconfig
    rw [List.mem_append, List.mem_singleton, not_or] at hconfig
    rw [owner_rehomed, h.left htarget hconfig.1, if_neg hconfig.2]

/-- A record of the snippet that is taken in. -/
theorem relocated_new : Relocated target (config ++ [source]) (source, r) (r.rehomed source target) := by
  refine ⟨id_rehomed, body_rehomed, ?_, ?_⟩
  · rintro (howner | howner)
    · rw [owner_rehomed, howner, ite_self]
    · rw [owner_rehomed, if_pos howner]
  · intro _ hconfig
    rw [List.mem_append, List.mem_singleton, not_or] at hconfig
    rw [owner_rehomed, if_neg hconfig.2]

end EscapeRecord

/-! ## Fragments -/

/-- The lists of escapes, those of holes apart, each with the kind of escapes in it. -/
def escapeLists : List (EscapeKind × (Fragment → List EscapeRecord)) :=
  [(.persist, (·.persist)), (.splice, (·.splice)), (.persist, (·.ownPersist)), (.splice, (·.ownSplice))]

theorem mem_escapeLists {kind : EscapeKind} {list : Fragment → List EscapeRecord} :
    (kind, list) ∈ escapeLists ↔ kind = .persist ∧ list = (·.persist) ∨ kind = .splice ∧ list = (·.splice) ∨
      kind = .persist ∧ list = (·.ownPersist) ∨ kind = .splice ∧ list = (·.ownSplice) := by
  simp [escapeLists]

namespace Fragment

/-- The records in a list of a fragment, each with the fragment that it comes from. -/
def tagged (list : Fragment → List EscapeRecord) (f : Fragment) : List (NodeId × EscapeRecord) :=
  (list f).map fun r => (f.id, r)

/-- `g` is the fragment `f` with what is recorded of the chosen snippets: their escapes behind those of `f`,
and their definitions behind those of `f` unless they are there. All else but code and holes is that
of `f`. -/
structure Gathered (f : Fragment) (chosen : List Fragment) (g : Fragment) : Prop where
  escapes : ∀ kind list, (kind, list) ∈ escapeLists →
    List.Forall₂ (EscapeRecord.Relocated f.id (chosen.map (·.id))) ((f :: chosen).flatMap (tagged list)) (list g)
  free : g.free = f.free ++ ((chosen.flatMap (·.free)).filter (· ∉ f.free)).eraseDups
  bound : g.bound = f.bound ++ ((chosen.flatMap (·.bound)).filter (· ∉ f.bound)).eraseDups
  id : g.id = f.id
  label : g.label = f.label
  snippet : g.snippet = f.snippet
  parent : g.parent = f.parent
  nested : g.nested = f.nested
  fills : g.fills = f.fills

variable {f g snippet : Fragment} {chosen : List Fragment} {kind : EscapeKind}
  {list : Fragment → List EscapeRecord}

theorem escapes_absorb (h : (kind, list) ∈ escapeLists) (target : NodeId) :
    list (g.absorb target snippet) = rehome snippet.id target (list g ++ list snippet) := by
  rcases mem_escapeLists.1 h with ⟨-, rfl⟩ | ⟨-, rfl⟩ | ⟨-, rfl⟩ | ⟨-, rfl⟩ <;> rfl

/-- At the start a variant lists what its fragment lists. -/
theorem gathered_self (f : Fragment) : f.Gathered [] f where
  escapes kind list _ := by
    rw [List.flatMap_singleton, tagged, List.forall₂_map_left_iff]
    exact List.forall₂_same.2 fun r _ => ⟨rfl, rfl, or_self_iff.1, fun _ _ => rfl⟩
  free := by simp
  bound := by simp
  id := rfl
  label := rfl
  snippet := rfl
  parent := rfl
  nested := rfl
  fills := rfl

namespace Gathered

/-- One more snippet is taken in. -/
theorem absorb (h : f.Gathered chosen g) (snippet : Fragment) :
    f.Gathered (chosen ++ [snippet]) (g.absorb f.id snippet) where
  escapes kind list hlist := by
    rw [escapes_absorb hlist, EscapeRecord.rehome_eq, List.map_append, List.map_append, ← List.cons_append,
      List.flatMap_append, List.flatMap_singleton]
    refine List.rel_append ?_ ?_
    · rw [List.forall₂_map_right_iff]
      exact (h.escapes kind list hlist).imp fun _ _ hr => hr.rehomed snippet.id
    · rw [tagged, List.forall₂_map_left_iff, List.forall₂_map_right_iff]
      exact List.forall₂_same.2 fun r _ => EscapeRecord.relocated_new
  free := by
    change unionInto g.free snippet.free = _
    rw [h.free, ← unionInto_eq, ← unionInto_eq, ← unionInto_append, List.flatMap_append,
      List.flatMap_singleton]
  bound := by
    change unionInto g.bound snippet.bound = _
    rw [h.bound, ← unionInto_eq, ← unionInto_eq, ← unionInto_append, List.flatMap_append,
      List.flatMap_singleton]
  id := h.id
  label := h.label
  snippet := h.snippet
  parent := h.parent
  nested := h.nested
  fills := h.fills

/-- Absorbing snippets one after the other adds their lists. -/
theorem foldl_absorb (h : f.Gathered chosen g) (snippets : List (NodeId × Fragment)) :
    f.Gathered (chosen ++ snippets.map (·.2))
      (snippets.foldl (fun v (_, snippet) => v.absorb f.id snippet) g) := by
  induction snippets generalizing chosen g with
  | nil =>
    rw [List.map_nil, List.append_nil]
    exact h
  | cons entry rest ih =>
    have hrest := ih (h.absorb entry.2)
    rw [List.append_assoc] at hrest
    exact hrest

/-- Nothing is said of the code and the holes. -/
theorem replace (h : f.Gathered chosen g) (body : Term) (ownSnippet : List EscapeRecord) :
    f.Gathered chosen { g with body := body, ownSnippet := ownSnippet } where
  escapes kind list hlist := by
    have hsame : list { g with body := body, ownSnippet := ownSnippet } = list g := by
      rcases mem_escapeLists.1 hlist with ⟨-, rfl⟩ | ⟨-, rfl⟩ | ⟨-, rfl⟩ | ⟨-, rfl⟩ <;> rfl
    rw [hsame]
    exact h.escapes kind list hlist
  free := h.free
  bound := h.bound
  id := h.id
  label := h.label
  snippet := h.snippet
  parent := h.parent
  nested := h.nested
  fills := h.fills

/-- The snippets of a round are taken in after those of the rounds before. -/
theorem fill {fragments : Table Fragment} {choice : List NodeId} {filled : Fragment} (h : f.Gathered chosen g)
    (hfill : g.fill fragments choice = .ok filled) (hlen : choice.length = g.ownSnippet.length) :
    ∃ snippets, List.Forall₂ (fun id c => fragments.get? id = some c) choice snippets ∧
      f.Gathered (chosen ++ snippets) filled := by
  rcases Except.bind_eq_ok.1 hfill with ⟨entries, hchosen, hpure⟩
  cases hpure
  refine ⟨entries.map (·.2), ?_, ?_⟩
  · rw [List.forall₂_map_right_iff]
    exact forall₂_chosen hchosen hlen
  · have hmerged := (h.replace g.body []).foldl_absorb entries
    rw [← h.id] at hmerged
    exact hmerged.replace _ _

end Gathered

end Fragment

/-! ## Variants -/

/-- What a partial variant of `f` has recorded is that of `f` and of the snippets chosen so far. -/
def PartialVariant.Collects (fragments : Table Fragment) (f : Fragment) (p : PartialVariant) : Prop :=
  ∃ chosen, List.Forall₂ (fun id c => fragments.get? id = some c) p.config chosen ∧ f.Gathered chosen p.fragment

/-- A round adds the snippets of its choice to those that the variant collects. -/
theorem PartialVariant.Collects.grow {fragments : Table Fragment} {f : Fragment} {p q : PartialVariant}
    {choice : List NodeId} (h : p.Collects fragments f) (hgrows : p.Grows fragments choice q) :
    q.Collects fragments f := by
  rcases h with ⟨chosen, hconfig, hgathered⟩
  have hlen : choice.length = p.fragment.ownSnippet.length := by
    rw [hgrows.fits.length_eq, Fragment.holes, List.length_map]
  rcases hgathered.fill hgrows.fill hlen with ⟨snippets, hsnippets, hfilled⟩
  refine ⟨chosen ++ snippets, ?_, hfilled⟩
  rw [hgrows.config]
  exact List.rel_append hconfig hsnippets

/-- **Escapes move with their code.** In a table where each fragment stands under its identity, a variant of
a fragment replaces this fragment alone. In each of its lists of escapes come the records of the fragment and
then those of the chosen snippets, in the order of the choices, with the same code. The escapes of the
fragment and of the chosen snippets belong to the fragment, and those of other fragments to whom they did.
Definitions are listed once, first those of the fragment. There is no hole left, and all else is that of the
fragment. -/
theorem escapes_move_with_code {fragments : Table Fragment}
    (hkeyed : ∀ entry ∈ fragments.entries, entry.2.id = entry.1) {f : Fragment} {vs : List Variant}
    (h : f.variants? fragments = .ok (some vs)) :
    ∀ v ∈ vs, v.fragment = f.id ∧ ∃ chosen g, v.fragments.entries = [(f.id, g)] ∧
      List.Forall₂ (fun id c => fragments.get? id = some c) v.config chosen ∧
      v.config = chosen.map (·.id) ∧ f.Gathered chosen g ∧ g.ownSnippet = [] := by
  have hgrow : ∀ (p q : PartialVariant) choice, p.Collects fragments f → p.Grows fragments choice q →
      q.Collects fragments f := fun p q choice hp hgrows => hp.grow hgrows
  intro v hv
  rcases Fragment.variants?_rounds hkeyed hgrow h ⟨[], .nil, f.gathered_self⟩ v hv with
    ⟨p, ⟨chosen, hconfig, hgathered⟩, hdone, rfl⟩
  refine ⟨rfl, chosen, p.fragment, rfl, hconfig, ?_, hgathered, List.map_eq_nil_iff.1 hdone⟩
  have hids : List.Forall₂ (fun id c => id = Fragment.id c) p.config chosen :=
    hconfig.imp fun id c hget => (hkeyed (id, c) (Table.get?_eq_some_iff.1 hget)).symm
  rw [← List.forall₂_eq_eq_eq, List.forall₂_map_right_iff]
  exact hids

/-- A fragment with the given holes and persist escapes. -/
def recorded (id : NodeId) (holes : List NodeId) (fills : Option NodeId) (escapes : List (NodeId × NodeId)) :
    Fragment :=
  { holder id holes fills with
    persist := escapes.map fun entry => ⟨entry.1, .literal ⟨entry.1, {}⟩ (.int 0), entry.2⟩ }

/-- A snippet for hole 10 with a hole of its own, and one for that. Fragments 7 and 8 are nested in others. -/
def nestedEscapes : Table Fragment :=
  Table.ofList ([recorded 1 [10] none [(20, 1), (21, 7)], recorded 2 [11] (some 10) [(22, 2), (23, 8)],
    recorded 3 [] (some 11) [(24, 3)]].map fun f => (f.id, f))

/-- The escapes of both snippets come to fragment 1, those of nested fragments stay with them. -/
theorem escapes_move_with_code_nestedEscapes :
    (∀ entry ∈ nestedEscapes.entries, entry.2.id = entry.1) ∧
    ∃ v chosen g, (recorded 1 [10] none [(20, 1), (21, 7)]).variants? nestedEscapes = .ok (some [v]) ∧
      v.config = [2, 3] ∧ v.fragments.entries = [(1, g)] ∧
      (recorded 1 [10] none [(20, 1), (21, 7)]).Gathered chosen g ∧ chosen.map (·.id) = [2, 3] ∧
      g.persist.map (fun r => (r.id, r.owner)) = [(20, 1), (21, 7), (22, 1), (23, 8), (24, 1)] := by
  have hkeyed : ∀ entry ∈ nestedEscapes.entries, entry.2.id = entry.1 := by decide
  have hvariants : (recorded 1 [10] none [(20, 1), (21, 7)]).variants? nestedEscapes = .ok (some [_]) := rfl
  rcases (escapes_move_with_code hkeyed hvariants _ (List.mem_singleton.2 rfl)).2 with
    ⟨chosen, g, hentries, -, hconfig, hgathered, -⟩
  cases hentries
  exact ⟨hkeyed, _, chosen, _, hvariants, rfl, rfl, hgathered, hconfig.symm, rfl⟩

end Multistage
