import Multistage.Fragment.Variant
import Multistage.Proofs.Pointwise
import Multistage.Proofs.Tables

/-!
# The variants of a fragment are its choices

Variants are made in rounds: each round fills all holes of each partial variant in every possible way,
and the snippets bring new holes. `Complete` says directly which lists are the choices of a finished
variant. The rounds keep the set of lists that can still be reached (`completes_round_iff`) and the
order of the partial variants (`ascending_round`), and there is fuel for all rounds (`rounds_eq_ok`).

Main statement: `variants_enumerate_choices`.
-/

namespace Multistage

/-! ## Choices in order -/

/-- Two lists of identities differ, and at the first difference the left one is smaller. -/
inductive Before : List NodeId → List NodeId → Prop
  | head {a b as bs} : a < b → Before (a :: as) (b :: bs)
  | tail {a as bs} : Before as bs → Before (a :: as) (a :: bs)

namespace Before

theorem lt {as bs : List NodeId} (h : Before as bs) : as < bs := by
  induction h with
  | head h => exact List.Lex.rel h
  | tail _ ih => exact List.Lex.cons ih

/-- What follows a difference does not matter. -/
theorem append {as bs : List NodeId} (h : Before as bs) (cs ds : List NodeId) :
    Before (as ++ cs) (bs ++ ds) := by
  induction h with
  | head h => exact .head h
  | tail _ ih => exact .tail ih

theorem append_left {as bs : List NodeId} (h : Before as bs) (cs : List NodeId) :
    Before (cs ++ as) (cs ++ bs) := by
  induction cs with
  | nil => exact h
  | cons c cs ih => exact .tail ih

end Before

theorem crossProduct_cons {α : Type} {rest : List (List α)} (h : rest ≠ []) (set : List α) :
    crossProduct (set :: rest) = set.flatMap fun a => (crossProduct rest).map (a :: ·) := by
  cases rest with
  | nil => exact absurd rfl h
  | cons next rest => rfl

/-- The tuples of a product take one member from each set; a product of no sets is empty. -/
theorem mem_crossProduct {α : Type} {sets : List (List α)} {choice : List α} :
    choice ∈ crossProduct sets ↔ sets ≠ [] ∧ List.Forall₂ (· ∈ ·) choice sets := by
  induction sets generalizing choice with
  | nil => simp [crossProduct]
  | cons set rest ih =>
    -- the last set is a case of its own: there are no choices from no sets
    by_cases hrest : rest = []
    · subst hrest
      simp [crossProduct, List.forall₂_cons_right_iff, eq_comm, and_comm]
    · rw [crossProduct_cons hrest]
      simp only [List.mem_flatMap, List.mem_map, ih, List.forall₂_cons_right_iff]
      constructor
      · rintro ⟨a, ha, rest', ⟨-, hrest'⟩, rfl⟩
        exact ⟨by simp, a, rest', ha, hrest', rfl⟩
      · rintro ⟨-, a, rest', ha, hrest', rfl⟩
        exact ⟨a, ha, rest', ⟨hrest, hrest'⟩, rfl⟩

/-- Choices from ascending lists come in ascending order. -/
theorem pairwise_crossProduct {sets : List (List NodeId)} (h : ∀ set ∈ sets, set.Pairwise (· < ·)) :
    (crossProduct sets).Pairwise Before := by
  induction sets with
  | nil => exact .nil
  | cons set rest ih =>
    rcases List.forall_mem_cons.1 h with ⟨hset, hsets⟩
    by_cases hrest : rest = []
    · subst hrest
      rw [crossProduct, List.pairwise_map]
      exact hset.imp Before.head
    · rw [crossProduct_cons hrest, List.pairwise_flatMap]
      constructor
      · -- choices with the same head
        intro a _
        rw [List.pairwise_map]
        exact (ih hsets).imp Before.tail
      · -- the heads differ
        refine hset.imp ?_
        intro a b hab as has bs hbs
        rcases List.mem_map.1 has with ⟨as', -, rfl⟩
        rcases List.mem_map.1 hbs with ⟨bs', -, rfl⟩
        exact .head hab

/-! ## Holes and what can fill them -/

/-- The identities of the holes of a fragment. -/
def Fragment.holes (f : Fragment) : List NodeId := f.ownSnippet.map (·.id)

/-- The fragment with the identity `id` can fill the hole. -/
def Fills (fragments : Table Fragment) (id hole : NodeId) : Prop :=
  ∃ snippet, fragments.get? id = some snippet ∧ snippet.fills = some hole

/-- The holes that the fragment with the identity `id` brings with it. -/
def opened (fragments : Table Fragment) (id : NodeId) : List NodeId :=
  ((fragments.get? id).map Fragment.holes).getD []

/-- The lists that are complete choices for some holes: a fragment for each hole, then one for each hole
that these open, and so on until none is open. -/
inductive Complete (fragments : Table Fragment) : List NodeId → List NodeId → Prop
  | done : Complete fragments [] []
  | round {holes choice rest} : holes ≠ [] → List.Forall₂ (Fills fragments) choice holes →
      Complete fragments (choice.flatMap (opened fragments)) rest →
      Complete fragments holes (choice ++ rest)

theorem complete_nil_iff {fragments : Table Fragment} {config : List NodeId} :
    Complete fragments [] config ↔ config = [] := by
  constructor
  · intro h
    cases h with
    | done => rfl
    | round hne => exact absurd rfl hne
  · rintro rfl
    exact .done

/-- A complete choice fills the holes that are open, and then those which that opens. -/
theorem complete_iff_round {fragments : Table Fragment} {holes config : List NodeId} (hne : holes ≠ []) :
    Complete fragments holes config ↔ ∃ choice rest, List.Forall₂ (Fills fragments) choice holes ∧
      Complete fragments (choice.flatMap (opened fragments)) rest ∧ config = choice ++ rest := by
  constructor
  · intro h
    cases h with
    | done => exact absurd rfl hne
    | round _ hfills hrest => exact ⟨_, _, hfills, hrest, rfl⟩
  · rintro ⟨choice, rest, hfills, hrest, rfl⟩
    exact .round hne hfills hrest

/-- The fragments that can fill a hole, in the order of the table. -/
def candidates (fragments : Table Fragment) (hole : NodeId) : List NodeId :=
  (fragments.values.filter (·.fills = some hole)).map (·.id)

section Keyed

variable {fragments : Table Fragment} (hkeyed : ∀ entry ∈ fragments.entries, entry.2.id = entry.1)

include hkeyed

/-- The candidates for a hole are the snippets that fill it. -/
theorem mem_candidates {id hole : NodeId} : id ∈ candidates fragments hole ↔ Fills fragments id hole := by
  simp only [candidates, Table.values, Fills, Table.get?_eq_some_iff, List.mem_map, List.mem_filter,
    decide_eq_true_eq]
  constructor
  · rintro ⟨snippet, ⟨⟨⟨key, snippet⟩, hentry, rfl⟩, hfills⟩, rfl⟩
    have hkey := hkeyed _ hentry
    dsimp only at hkey hfills
    exact ⟨snippet, by simpa [hkey] using hentry, hfills⟩
  · rintro ⟨snippet, hentry, hfills⟩
    exact ⟨snippet, ⟨⟨_, hentry, rfl⟩, hfills⟩, hkeyed _ hentry⟩

/-- Candidates are in ascending order. -/
theorem pairwise_candidates (hole : NodeId) : (candidates fragments hole).Pairwise (· < ·) := by
  have hvalues : fragments.values.Pairwise (fun f g => f.id < g.id) := by
    rw [Table.values, List.pairwise_map]
    refine fragments.ascending.imp_of_mem ?_
    intro entry entry' hentry hentry' hlt
    rw [hkeyed entry hentry, hkeyed entry' hentry']
    exact hlt
  rw [candidates, List.pairwise_map]
  exact hvalues.filter _

end Keyed

/-! ## One round -/

theorem map_id_rehome (source target : NodeId) (records : List EscapeRecord) :
    (rehome source target records).map (·.id) = records.map (·.id) := by
  rw [rehome, List.map_map]
  refine List.map_congr_left fun r _ => ?_
  dsimp only [Function.comp]
  split <;> rfl

theorem Fragment.holes_absorb (target : NodeId) (f snippet : Fragment) :
    (f.absorb target snippet).holes = f.holes ++ snippet.holes := by
  simp [holes, absorb, map_id_rehome]

/-- Absorbing snippets appends their holes. -/
theorem Fragment.holes_foldl_absorb (target : NodeId) (snippets : List (NodeId × Fragment))
    (f : Fragment) :
    (snippets.foldl (fun v (_, snippet) => v.absorb target snippet) f).holes =
      f.holes ++ snippets.flatMap fun entry => entry.2.holes := by
  induction snippets generalizing f with
  | nil => simp
  | cons entry rest ih =>
    rw [List.foldl_cons, ih, holes_absorb, List.flatMap_cons, List.append_assoc]

variable {fragments : Table Fragment}

/-- The snippets of a choice are looked up one by one. -/
theorem Fragment.forall₂_chosen {f : Fragment} {choice : List NodeId}
    {snippets : List (NodeId × Fragment)} (h : f.chosen fragments choice = .ok snippets)
    (hlen : choice.length = f.ownSnippet.length) :
    List.Forall₂ (fun id entry => fragments.get? id = some entry.2) choice snippets := by
  have hpairs : List.Forall₂ (fun id entry => fragments.get? id = some entry.2)
      ((f.ownSnippet.zip choice).map Prod.snd) snippets := by
    rw [List.forall₂_map_left_iff]
    refine (mapM_eq_ok.1 h).imp ?_
    rintro ⟨hole, id⟩ entry hentry
    dsimp only at hentry
    split at hentry
    · next snippet hget =>
      cases hentry
      exact hget
    · cases hentry
  rwa [List.map_snd_zip (by omega)] at hpairs

/-- The holes of the chosen snippets are those that the choice opens. -/
theorem Fragment.holes_chosen {f : Fragment} {choice : List NodeId}
    {snippets : List (NodeId × Fragment)} (h : f.chosen fragments choice = .ok snippets)
    (hlen : choice.length = f.ownSnippet.length) :
    (snippets.flatMap fun entry => entry.2.holes) = choice.flatMap (opened fragments) := by
  have hchosen := forall₂_chosen h hlen
  clear h hlen
  induction hchosen with
  | nil => rfl
  | cons hget _ ih => rw [List.flatMap_cons, List.flatMap_cons, ih, opened, hget, Option.map_some, Option.getD_some]

/-- A filled fragment has the holes that its snippets open. -/
theorem Fragment.holes_fill {f g : Fragment} {choice : List NodeId}
    (h : f.fill fragments choice = .ok g) (hlen : choice.length = f.ownSnippet.length) :
    g.holes = choice.flatMap (opened fragments) := by
  rcases Except.bind_eq_ok.1 h with ⟨snippets, hchosen, hg⟩
  cases hg
  exact (holes_foldl_absorb f.id snippets _).trans (holes_chosen hchosen hlen)

namespace PartialVariant

/-- `q` is `p` with its holes filled by a choice of fragments. -/
structure Expands (fragments : Table Fragment) (p : PartialVariant) (choice : List NodeId)
    (q : PartialVariant) : Prop where
  config : q.config = p.config ++ choice
  holes : q.fragment.holes = choice.flatMap (opened fragments)
  filled : q.filled = p.filled ++ p.fragment.holes

/-- If each hole has candidates, these are the options. -/
theorem options_eq {f : Fragment} {options : List (List NodeId)}
    (h : f.options fragments = .ok options) : options = f.holes.map (candidates fragments) := by
  rw [Fragment.options, mapM_eq_ok] at h
  rw [Fragment.holes]
  generalize f.ownSnippet = records at h ⊢
  induction h with
  | nil => rfl
  | @cons hole set _ _ hhead _ ih =>
    rw [List.map_cons, List.map_cons, ih]
    split at hhead
    · cases hhead
    · cases hhead
      rfl

/-- Where there are options, there is one for each hole. -/
theorem candidates_ne_nil {f : Fragment} {options : List (List NodeId)} (h : f.options fragments = .ok options) :
    ∀ hole ∈ f.holes, candidates fragments hole ≠ [] := by
  intro hole hhole hnone
  rcases List.mem_map.1 hhole with ⟨record, hrecord, rfl⟩
  rcases exists_of_forall₂ (mapM_eq_ok.1 h) hrecord with ⟨ids, -, hids⟩
  rw [show (fragments.values.filter (·.fills = some record.id)).map (·.id) = [] from hnone] at hids
  cases hids

/-- Expanding fills holes that were not filled before, once for each choice, in the order of choices. -/
theorem expand_eq_ok {p : PartialVariant} {qs : List PartialVariant}
    (h : p.expand fragments = .ok qs) :
    (∀ hole ∈ p.fragment.holes, hole ∉ p.filled) ∧
    List.Forall₂ (p.Expands fragments) (crossProduct (p.fragment.holes.map (candidates fragments))) qs := by
  unfold expand at h
  split at h
  · cases h
  · next hnone =>
    rcases Except.bind_eq_ok.1 h with ⟨options, hoptions, hqs⟩
    have hoptions := options_eq hoptions
    subst hoptions
    constructor
    · intro hole hhole
      rcases List.mem_map.1 hhole with ⟨record, hrecord, rfl⟩
      simpa using List.find?_eq_none.1 hnone record hrecord
    · have hlen : ∀ choice ∈ crossProduct (p.fragment.holes.map (candidates fragments)),
          choice.length = p.fragment.ownSnippet.length := by
        intro choice hchoice
        simpa [Fragment.holes] using (mem_crossProduct.1 hchoice).2.length_eq
      refine ((List.forall₂_and_left _ _).2 ⟨hlen, mapM_eq_ok.1 hqs⟩).imp ?_
      rintro choice q ⟨hlen, hq⟩
      rcases Except.bind_eq_ok.1 hq with ⟨g, hg, hq⟩
      cases hq
      exact ⟨rfl, Fragment.holes_fill hg hlen, rfl⟩

theorem isDone_iff {p : PartialVariant} : p.isDone = true ↔ p.fragment.holes = [] := by
  simp [isDone, Fragment.holes]

/-- What one round makes of a partial variant. -/
def Step (fragments : Table Fragment) (p : PartialVariant) (qs : List PartialVariant) : Prop :=
  p.fragment.holes = [] ∧ qs = [p] ∨
  p.fragment.holes ≠ [] ∧ (∀ hole ∈ p.fragment.holes, hole ∉ p.filled) ∧
    List.Forall₂ (p.Expands fragments) (crossProduct (p.fragment.holes.map (candidates fragments))) qs

/-- A round goes through the variants one by one. -/
theorem round_eq_ok {ps qs : List PartialVariant} (h : round fragments ps = .ok qs) :
    ∃ blocks, List.Forall₂ (Step fragments) ps blocks ∧ qs = blocks.flatten := by
  rcases Except.bind_eq_ok.1 h with ⟨blocks, hblocks, hqs⟩
  cases hqs
  refine ⟨blocks, (mapM_eq_ok.1 hblocks).imp ?_, rfl⟩
  intro p block hp
  split at hp
  · next hdone =>
    cases hp
    exact .inl ⟨isDone_iff.1 hdone, rfl⟩
  · next hdone => exact .inr ⟨fun hholes => hdone (isDone_iff.2 hholes), expand_eq_ok hp⟩

/-! ### What can still be reached -/

/-- The choices that a partial variant can end with. -/
def Completes (fragments : Table Fragment) (p : PartialVariant) (config : List NodeId) : Prop :=
  ∃ rest, Complete fragments p.fragment.holes rest ∧ config = p.config ++ rest

theorem completes_iff_of_done {p : PartialVariant} (h : p.fragment.holes = []) {config : List NodeId} :
    p.Completes fragments config ↔ config = p.config := by
  simp [Completes, h, complete_nil_iff]

/-- The choices of a round take a snippet that fits for each hole. -/
theorem mem_crossProduct_candidates (hkeyed : ∀ entry ∈ fragments.entries, entry.2.id = entry.1)
    {holes choice : List NodeId} (hne : holes ≠ []) :
    choice ∈ crossProduct (holes.map (candidates fragments)) ↔
      List.Forall₂ (Fills fragments) choice holes := by
  simp [mem_crossProduct, hne, List.forall₂_map_right_iff, mem_candidates hkeyed]

/-- A round loses no choices and adds none. -/
theorem Step.completes_iff (hkeyed : ∀ entry ∈ fragments.entries, entry.2.id = entry.1)
    {p : PartialVariant} {qs : List PartialVariant} (h : Step fragments p qs) (config : List NodeId) :
    (∃ q ∈ qs, q.Completes fragments config) ↔ p.Completes fragments config := by
  rcases h with ⟨-, rfl⟩ | ⟨hne, -, hqs⟩
  · simp
  · -- the choice of this round is the first part of what is still missing
    constructor
    · rintro ⟨q, hq, rest, hrest, rfl⟩
      rcases exists_of_forall₂ hqs.flip hq with ⟨choice, hmem, hexpands⟩
      exact ⟨choice ++ rest, .round hne ((mem_crossProduct_candidates hkeyed hne).1 hmem) (hexpands.holes ▸ hrest),
        by rw [hexpands.config, List.append_assoc]⟩
    · rintro ⟨config, hconfig, rfl⟩
      rcases (complete_iff_round hne).1 hconfig with ⟨choice, rest, hfills, hrest, rfl⟩
      rcases exists_of_forall₂ hqs ((mem_crossProduct_candidates hkeyed hne).2 hfills) with ⟨q, hq, hexpands⟩
      refine ⟨q, hq, rest, ?_, ?_⟩
      · rw [hexpands.holes]
        exact hrest
      · rw [hexpands.config, List.append_assoc]

/-- A round loses no choice and adds none. -/
theorem completes_round_iff (hkeyed : ∀ entry ∈ fragments.entries, entry.2.id = entry.1)
    {ps qs : List PartialVariant} (h : round fragments ps = .ok qs) (config : List NodeId) :
    (∃ q ∈ qs, q.Completes fragments config) ↔ ∃ p ∈ ps, p.Completes fragments config := by
  rcases round_eq_ok h with ⟨blocks, hblocks, rfl⟩
  simp only [List.mem_flatten]
  constructor
  · rintro ⟨q, ⟨block, hblock, hq⟩, hconfig⟩
    rcases exists_of_forall₂ hblocks.flip hblock with ⟨p, hp, hstep⟩
    exact ⟨p, hp, (Step.completes_iff hkeyed hstep config).1 ⟨q, hq, hconfig⟩⟩
  · rintro ⟨p, hp, hconfig⟩
    rcases exists_of_forall₂ hblocks hp with ⟨block, hblock, hstep⟩
    rcases (Step.completes_iff hkeyed hstep config).2 hconfig with ⟨q, hq, hconfig⟩
    exact ⟨q, ⟨block, hblock, hq⟩, hconfig⟩

/-! ### Order -/

/-- The choices made so far tell two partial variants apart, and the smaller ones come first. -/
def Ascending (ps : List PartialVariant) : Prop := ps.Pairwise fun p q => Before p.config q.config

/-- One round only adds to the choices made. -/
theorem Step.config_append {p q : PartialVariant} {qs : List PartialVariant}
    (h : Step fragments p qs) (hq : q ∈ qs) : ∃ choice, q.config = p.config ++ choice := by
  rcases h with ⟨-, rfl⟩ | ⟨-, -, hqs⟩
  · rw [List.mem_singleton] at hq
    exact ⟨[], by simp [hq]⟩
  · rcases exists_of_forall₂ hqs.flip hq with ⟨choice, -, hexpands⟩
    exact ⟨choice, hexpands.config⟩

/-- A step gives variants in ascending order of their choices. -/
theorem Step.ascending (hkeyed : ∀ entry ∈ fragments.entries, entry.2.id = entry.1)
    {p : PartialVariant} {qs : List PartialVariant} (h : Step fragments p qs) : Ascending qs := by
  rcases h with ⟨-, rfl⟩ | ⟨-, -, hqs⟩
  · exact List.pairwise_singleton _ _
  · have hchoices : (crossProduct (p.fragment.holes.map (candidates fragments))).Pairwise Before := by
      refine pairwise_crossProduct fun set hset => ?_
      rcases List.mem_map.1 hset with ⟨hole, -, rfl⟩
      exact pairwise_candidates hkeyed hole
    -- the results stand in the order of the choices, which have the same configuration before them
    unfold Ascending
    generalize crossProduct (p.fragment.holes.map (candidates fragments)) = choices at hqs hchoices
    induction hqs with
    | nil => exact .nil
    | cons hhead htail ih =>
      rcases List.pairwise_cons.1 hchoices with ⟨hfirst, hothers⟩
      refine List.pairwise_cons.2 ⟨fun q hq => ?_, ih hothers⟩
      rcases exists_of_forall₂ htail.flip hq with ⟨choice, hchoice, hexpands⟩
      rw [hhead.config, hexpands.config]
      exact (hfirst choice hchoice).append_left _

/-- A round keeps variants in ascending order of their choices. -/
theorem ascending_round (hkeyed : ∀ entry ∈ fragments.entries, entry.2.id = entry.1)
    {ps qs : List PartialVariant} (h : round fragments ps = .ok qs) (hps : Ascending ps) :
    Ascending qs := by
  rcases round_eq_ok h with ⟨blocks, hblocks, rfl⟩
  clear h
  unfold Ascending at hps ⊢
  rw [List.pairwise_flatten]
  induction hblocks with
  | nil => exact ⟨by simp, .nil⟩
  | @cons p block _ _ hstep hsteps ih =>
    rcases List.pairwise_cons.1 hps with ⟨hfirst, hothers⟩
    rcases ih hothers with ⟨hinside, hbetween⟩
    refine ⟨List.forall_mem_cons.2 ⟨hstep.ascending hkeyed, hinside⟩,
      List.pairwise_cons.2 ⟨fun block' hblock' q hq q' hq' => ?_, hbetween⟩⟩
    -- configurations that differ stay apart whatever is added to them
    rcases exists_of_forall₂ hsteps.flip hblock' with ⟨p', hp', hstep'⟩
    rcases hstep.config_append hq with ⟨choice, hchoice⟩
    rcases Step.config_append hstep' hq' with ⟨choice', hchoice'⟩
    rw [hchoice, hchoice']
    exact (hfirst p' hp').append choice choice'

/-! ### All rounds -/

/-- How many of the given holes are not filled yet. -/
def remaining (known : List NodeId) (p : PartialVariant) : Nat :=
  (known.filter (· ∉ p.filled)).length

/-- The holes of a partial variant are among the given ones, and fewer than `fuel` of these are left to
fill. -/
def Within (known : List NodeId) (fuel : Nat) (p : PartialVariant) : Prop :=
  p.fragment.holes ⊆ known ∧ p.remaining known < fuel

/-- Each round leaves fewer holes that have not been filled. -/
theorem Expands.remaining_lt {known choice : List NodeId} {p q : PartialVariant}
    (h : p.Expands fragments choice q) (hne : p.fragment.holes ≠ [])
    (hnew : ∀ hole ∈ p.fragment.holes, hole ∉ p.filled) (hsub : p.fragment.holes ⊆ known) :
    q.remaining known < p.remaining known := by
  have hfilter : known.filter (· ∉ q.filled) =
      (known.filter (· ∉ p.filled)).filter (· ∉ p.fragment.holes) := by
    rw [List.filter_filter, h.filled]
    refine List.filter_congr fun hole _ => ?_
    by_cases hp : hole ∈ p.filled <;> by_cases hq : hole ∈ p.fragment.holes <;> simp [hp, hq]
  -- a hole that has just been filled is no longer counted
  rw [remaining, remaining, hfilter, List.length_filter_lt_length_iff_exists]
  rcases List.exists_mem_of_ne_nil _ hne with ⟨hole, hhole⟩
  exact ⟨hole, by simp [hsub hhole, hnew hole hhole], by simp [hhole]⟩

/-- The holes of a fragment and of all fragments of the table. -/
def allHoles (fragments : Table Fragment) (f : Fragment) : List NodeId :=
  (f :: fragments.values).flatMap Fragment.holes

theorem opened_subset (f : Fragment) (id : NodeId) : opened fragments id ⊆ allHoles fragments f := by
  intro hole hhole
  unfold opened at hhole
  rcases hget : fragments.get? id with _ | snippet
  · simp [hget] at hhole
  · have hmem : snippet ∈ fragments.values :=
      List.mem_map.2 ⟨_, Table.get?_eq_some_iff.1 hget, rfl⟩
    rw [hget] at hhole
    exact List.mem_flatMap.2 ⟨snippet, List.mem_cons_of_mem _ hmem, hhole⟩

/-- Each round needs less fuel than the one before. -/
theorem Step.within {f : Fragment} {fuel : Nat} {p q : PartialVariant} {qs : List PartialVariant}
    (h : Step fragments p qs) (hq : q ∈ qs)
    (hp : p.fragment.holes = [] ∨ p.Within (allHoles fragments f) (fuel + 1)) :
    q.fragment.holes = [] ∨ q.Within (allHoles fragments f) fuel := by
  rcases h with ⟨hdone, rfl⟩ | ⟨hne, hnew, hqs⟩
  · rw [List.mem_singleton] at hq
    exact .inl (hq ▸ hdone)
  · rcases hp with hdone | ⟨hsub, hlt⟩
    · exact absurd hdone hne
    · rcases exists_of_forall₂ hqs.flip hq with ⟨choice, -, hexpands⟩
      refine .inr ⟨?_, ?_⟩
      · rw [hexpands.holes]
        intro hole hhole
        rcases List.mem_flatMap.1 hhole with ⟨id, -, hid⟩
        exact opened_subset f id hid
      · have := hexpands.remaining_lt hne hnew hsub
        omega

/-- With enough fuel all holes get filled; the choices stay those of the start, in order. -/
theorem rounds_eq_ok (hkeyed : ∀ entry ∈ fragments.entries, entry.2.id = entry.1) (f : Fragment)
    {fuel : Nat} {ps qs : List PartialVariant} (h : rounds fragments fuel ps = .ok qs)
    (hfuel : ∀ p ∈ ps, p.fragment.holes = [] ∨
      p.Within (allHoles fragments f) fuel) (hps : Ascending ps) :
    (∀ q ∈ qs, q.fragment.holes = []) ∧ Ascending qs ∧
    ∀ config, (∃ q ∈ qs, q.Completes fragments config) ↔ ∃ p ∈ ps, p.Completes fragments config := by
  induction fuel generalizing ps with
  | zero =>
    cases h
    refine ⟨fun q hq => ?_, hps, fun config => Iff.rfl⟩
    -- without fuel, what is not done would have fewer than no holes left to fill
    rcases hfuel q hq with hdone | ⟨-, hlt⟩
    · exact hdone
    · exact absurd hlt (Nat.not_lt_zero _)
  | succ fuel ih =>
    rw [rounds] at h
    split at h
    · -- all done before the fuel is used up
      next hall =>
      cases h
      rw [List.all_eq_true] at hall
      exact ⟨fun q hq => isDone_iff.1 (hall q hq), hps, fun config => Iff.rfl⟩
    · rcases Except.bind_eq_ok.1 h with ⟨next, hnext, hqs⟩
      -- a round leaves each choice done or with fewer holes to fill
      have hfuel' : ∀ q ∈ next, q.fragment.holes = [] ∨
          q.Within (allHoles fragments f) fuel := by
        rcases round_eq_ok hnext with ⟨blocks, hblocks, rfl⟩
        intro q hq
        rcases List.mem_flatten.1 hq with ⟨block, hblock, hq⟩
        rcases exists_of_forall₂ hblocks.flip hblock with ⟨p, hp, hstep⟩
        exact Step.within hstep hq (hfuel p hp)
      rcases ih hqs hfuel' (ascending_round hkeyed hnext hps) with ⟨hdone, hasc, hconfigs⟩
      exact ⟨hdone, hasc, fun config =>
        (hconfigs config).trans (completes_round_iff hkeyed hnext config)⟩

/-- The fuel is the number of all holes. -/
theorem length_allHoles (f : Fragment) :
    (allHoles fragments f).length = holeCount (f :: fragments.values) := by
  have hholes : allHoles fragments f = ((f :: fragments.values).flatMap (·.ownSnippet)).map (·.id) := by
    rw [List.map_flatMap]
    rfl
  rw [hholes, List.length_map, holeCount]

/-- No round fills a hole twice, so at the start there is fuel for all holes there are. -/
theorem within_start (f : Fragment) :
    ∀ p ∈ [({ fragment := f } : PartialVariant)], p.fragment.holes = [] ∨
      p.Within (allHoles fragments f) (holeCount (f :: fragments.values) + 1) := by
  refine List.forall_mem_singleton.2 (.inr ⟨List.subset_append_left _ _, ?_⟩)
  rw [← length_allHoles]
  exact Nat.lt_succ_of_le (List.length_filter_le _ _)

end PartialVariant

/-- **Variants are enumerated exactly.** In a table where each fragment stands under its identity, the
variants of a fragment with holes have the complete choices for these holes as their configurations, in
strictly ascending order, so none is lost and none comes twice. -/
theorem variants_enumerate_choices {fragments : Table Fragment}
    (hkeyed : ∀ entry ∈ fragments.entries, entry.2.id = entry.1) {f : Fragment} {vs : List Variant}
    (h : f.variants? fragments = .ok (some vs)) :
    (∀ config, (∃ v ∈ vs, v.config = config) ↔ Complete fragments f.holes config) ∧
    (vs.map (·.config)).Pairwise (· < ·) := by
  unfold Fragment.variants? at h
  split at h
  · cases h
  · rcases Except.bind_eq_ok.1 h with ⟨done, hrounds, hvs⟩
    cases hvs
    obtain ⟨hdone, hasc, hconfigs⟩ := PartialVariant.rounds_eq_ok hkeyed f hrounds
      (PartialVariant.within_start f) (List.pairwise_singleton _ _)
    constructor
    · intro config
      calc (∃ v ∈ done.map fun p => (⟨f.id, p.config, _⟩ : Variant), v.config = config)
          ↔ ∃ q ∈ done, config = q.config := by simp [eq_comm]
        _ ↔ ∃ q ∈ done, q.Completes fragments config :=
          exists_congr fun q => and_congr_right fun hq =>
            (PartialVariant.completes_iff_of_done (hdone q hq)).symm
        _ ↔ ∃ p ∈ [({ fragment := f } : PartialVariant)], p.Completes fragments config :=
          hconfigs config
        _ ↔ Complete fragments f.holes config := by simp [PartialVariant.Completes]
    · rw [List.map_map, List.pairwise_map]
      exact hasc.imp Before.lt

/-- A fragment with the given holes, which may fill one itself. -/
def holder (id : NodeId) (holes : List NodeId) (fills : Option NodeId) : Fragment where
  id := id
  body := .literal ⟨id, {}⟩ (.int 0)
  label := none
  snippet := true
  parent := none
  ownSnippet := holes.map fun hole => ⟨hole, .literal ⟨hole, {}⟩ (.int 0), id⟩
  fills := fills

/-- Two fragments for hole 10, of which one has a hole of its own. -/
def nestedHoles : Table Fragment :=
  Table.ofList ([holder 1 [10, 11] none, holder 2 [] (some 10), holder 3 [12] (some 10),
    holder 4 [] (some 11), holder 5 [] (some 12), holder 6 [] (some 12)].map fun f => (f.id, f))

/-- Choices of different length stand in one order. -/
theorem variants_enumerate_choices_nestedHoles :
    (∀ entry ∈ nestedHoles.entries, entry.2.id = entry.1) ∧
    ∃ vs, (holder 1 [10, 11] none).variants? nestedHoles = .ok (some vs) ∧
      vs.map (·.config) = [[2, 4], [3, 4, 5], [3, 4, 6]] ∧
      (∀ config, (∃ v ∈ vs, v.config = config) ↔ Complete nestedHoles [10, 11] config) ∧
      (vs.map (·.config)).Pairwise (· < ·) := by
  have hkeyed : ∀ entry ∈ nestedHoles.entries, entry.2.id = entry.1 := by decide
  have hvariants : (holder 1 [10, 11] none).variants? nestedHoles = .ok (some _) := rfl
  exact ⟨hkeyed, _, hvariants, rfl, variants_enumerate_choices hkeyed hvariants⟩

end Multistage
