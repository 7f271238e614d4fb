import Mathlib.Logic.Relation
import Multistage.Proofs.Variants

/-!
# When a fragment has variants

A hole leads to the holes of the snippets that can fill it. A fragment has variants exactly if every hole
that its own ones lead to can be filled and none leads back to itself. The rounds do not follow single
holes: they compare the holes to be filled with all holes filled so far. In a table where no hole stands
in two fragments this comes to the same (`Traced.mem_holes_of_again`), but the hole that the fault names
is the first one of the fragment, whichever of its holes leads back.

Main statements: `variants_exist_iff` and `fault_names_other_hole`.
-/

namespace Multistage

open Relation

/-! ## The graph of holes -/

/-- A snippet that can fill `hole` has the hole `next`. -/
def Leads (fragments : Table Fragment) (hole next : NodeId) : Prop :=
  ∃ id, Fills fragments id hole ∧ next ∈ opened fragments id

/-- Some snippet can fill the hole. -/
def Fillable (fragments : Table Fragment) (hole : NodeId) : Prop := ∃ id, Fills fragments id hole

/-- The hole is one of the fragment, or such a hole leads to it. -/
def Fragment.Reaches (fragments : Table Fragment) (f : Fragment) (hole : NodeId) : Prop :=
  ∃ start ∈ f.holes, ReflTransGen (Leads fragments) start hole

/-- Some way of filling the hole leads to it again. -/
def ContainsItself (fragments : Table Fragment) (hole : NodeId) : Prop :=
  TransGen (Leads fragments) hole hole

/-- No hole stands in two fragments. -/
def HolesOwnedOnce (fragments : Table Fragment) : Prop :=
  ∀ f ∈ fragments.values, ∀ g ∈ fragments.values, ∀ hole ∈ f.holes, hole ∈ g.holes → f.id = g.id

instance (fragments : Table Fragment) : Decidable (HolesOwnedOnce fragments) :=
  decidable_of_iff ((fragments.values.all fun f => fragments.values.all fun g =>
    f.holes.all fun hole => !g.holes.contains hole || f.id == g.id) = true) (by
      simp [HolesOwnedOnce, Decidable.imp_iff_not_or])

/-- Every way of filling the hole comes to an end. -/
inductive Settles (fragments : Table Fragment) : NodeId → Prop
  | intro {hole} : Fillable fragments hole → (∀ next, Leads fragments hole next → Settles fragments next) →
      Settles fragments hole

variable {fragments : Table Fragment} {f : Fragment}

namespace Settles

variable {hole next : NodeId}

theorem fillable (h : Settles fragments hole) : Fillable fragments hole := by
  cases h with
  | intro hfill _ => exact hfill

theorem of_reaches (h : Settles fragments hole) (hnext : ReflTransGen (Leads fragments) hole next) :
    Settles fragments next := by
  induction hnext with
  | refl => exact h
  | tail _ hlast ih =>
    cases ih with
    | intro _ hbelow => exact hbelow _ hlast

theorem not_containsItself (h : Settles fragments hole) : ¬ ContainsItself fragments hole := by
  induction h with
  | @intro hole _ _ ih =>
    intro hcycle
    -- the hole after this one lies on the same cycle
    rcases TransGen.head'_iff.1 hcycle with ⟨next, hfirst, hrest⟩
    exact ih next hfirst (TransGen.tail' hrest hfirst)

end Settles

theorem mem_values_of_get? {id : NodeId} (h : fragments.get? id = some f) : f ∈ fragments.values :=
  List.mem_map.2 ⟨_, Table.get?_eq_some_iff.1 h, rfl⟩

theorem opened_of_get? {id : NodeId} (h : fragments.get? id = some f) : opened fragments id = f.holes := by
  simp [opened, h]

/-- A fragment fills one hole at most. -/
theorem Fills.unique {id hole hole' : NodeId} (h : Fills fragments id hole)
    (h' : Fills fragments id hole') : hole = hole' := by
  rcases h with ⟨snippet, hget, hfills⟩
  rcases h' with ⟨snippet', hget', hfills'⟩
  rw [hget] at hget'
  cases hget'
  rw [hfills] at hfills'
  exact Option.some.inj hfills'

section Owned

variable (hkeyed : ∀ entry ∈ fragments.entries, entry.2.id = entry.1) (honce : HolesOwnedOnce fragments)

include hkeyed honce

/-- If no hole is owned twice, only one fragment opens it. -/
theorem eq_of_mem_opened {id id' hole : NodeId} (h : hole ∈ opened fragments id)
    (h' : hole ∈ opened fragments id') : id = id' := by
  rcases hget : fragments.get? id with _ | f
  · simp [opened, hget] at h
  · rcases hget' : fragments.get? id' with _ | g
    · simp [opened, hget'] at h'
    · rw [opened_of_get? hget] at h
      rw [opened_of_get? hget'] at h'
      have hf : f.id = id := hkeyed _ (Table.get?_eq_some_iff.1 hget)
      have hg : g.id = id' := hkeyed _ (Table.get?_eq_some_iff.1 hget')
      rw [← hf, ← hg]
      exact honce f (mem_values_of_get? hget) g (mem_values_of_get? hget') hole h h'

/-- At most one hole leads to a given one. -/
theorem Leads.unique {hole hole' next : NodeId} (h : Leads fragments hole next)
    (h' : Leads fragments hole' next) : hole = hole' := by
  rcases h with ⟨id, hfills, hnext⟩
  rcases h' with ⟨id', hfills', hnext'⟩
  cases eq_of_mem_opened hkeyed honce hnext hnext'
  exact hfills.unique hfills'

end Owned

/-- If all holes can be filled, then any filling of one is part of a choice for all. -/
theorem exists_choice {holes : List NodeId} (hfill : ∀ hole ∈ holes, Fillable fragments hole)
    {hole id : NodeId} (hmem : hole ∈ holes) (hid : Fills fragments id hole) :
    ∃ choice, List.Forall₂ (Fills fragments) choice holes ∧ id ∈ choice := by
  have hany : ∀ rest : List NodeId, (∀ hole ∈ rest, Fillable fragments hole) →
      ∃ choice, List.Forall₂ (Fills fragments) choice rest := by
    intro rest hrest
    induction rest with
    | nil => exact ⟨[], .nil⟩
    | cons hole rest ih =>
      rcases List.forall_mem_cons.1 hrest with ⟨⟨id, hid⟩, hrest⟩
      rcases ih hrest with ⟨choice, hchoice⟩
      exact ⟨id :: choice, .cons hid hchoice⟩
  induction holes with
  | nil => cases hmem
  | cons head rest ih =>
    rcases List.forall_mem_cons.1 hfill with ⟨⟨id', hid'⟩, hrest⟩
    rcases List.mem_cons.1 hmem with rfl | hmem
    · rcases hany rest hrest with ⟨choice, hchoice⟩
      exact ⟨id :: choice, .cons hid hchoice, List.mem_cons_self⟩
    · rcases ih hrest hmem with ⟨choice, hchoice, hin⟩
      exact ⟨id' :: choice, .cons hid' hchoice, List.mem_cons_of_mem _ hin⟩

namespace PartialVariant

variable {p q : PartialVariant} {ps qs : List PartialVariant} {fault : Fault}

/-! ## Rounds that succeed -/

section Keyed

variable (hkeyed : ∀ entry ∈ fragments.entries, entry.2.id = entry.1)

include hkeyed

theorem candidates_eq_nil_iff {hole : NodeId} :
    candidates fragments hole = [] ↔ ¬ Fillable fragments hole := by
  rw [List.eq_nil_iff_forall_not_mem, Fillable, not_exists]
  exact forall_congr' fun id => not_congr (mem_candidates hkeyed)

/-- Holes that have been filled can be filled. -/
theorem fillable_of_expand (h : p.expand fragments = .ok qs) :
    ∀ hole ∈ p.fragment.holes, Fillable fragments hole := by
  unfold expand at h
  split at h
  · cases h
  · rcases Except.bind_eq_ok.1 h with ⟨options, hoptions, -⟩
    intro hole hhole
    by_contra hnone
    exact candidates_ne_nil hoptions hole hhole ((candidates_eq_nil_iff hkeyed).2 hnone)

/-- In a round, all holes of all choices have been filled. -/
theorem fillable_of_round (h : round fragments ps = .ok qs) (hp : p ∈ ps) :
    ∀ hole ∈ p.fragment.holes, Fillable fragments hole := by
  rcases Except.bind_eq_ok.1 h with ⟨blocks, hblocks, -⟩
  rcases exists_of_forall₂ (mapM_eq_ok.1 hblocks) hp with ⟨block, -, hblock⟩
  split at hblock
  · next hdone =>
    rw [isDone_iff.1 hdone]
    exact List.forall_mem_nil _
  · exact fillable_of_expand hkeyed hblock

/-- A round keeps every way of filling one hole. -/
theorem exists_of_round (h : round fragments ps = .ok qs) (hp : p ∈ ps) {hole id : NodeId}
    (hhole : hole ∈ p.fragment.holes) (hid : Fills fragments id hole) :
    ∃ q ∈ qs, opened fragments id ⊆ q.fragment.holes := by
  have hfill := fillable_of_round hkeyed h hp
  rcases round_eq_ok h with ⟨blocks, hblocks, rfl⟩
  rcases exists_of_forall₂ hblocks hp with ⟨block, hblock, hstep⟩
  rcases hstep with ⟨hdone, -⟩ | ⟨hne, -, hqs⟩
  · rw [hdone] at hhole
    cases hhole
  · rcases exists_choice hfill hhole hid with ⟨choice, hchoice, hin⟩
    rcases exists_of_forall₂ hqs ((mem_crossProduct_candidates hkeyed hne).2 hchoice) with
      ⟨q, hq, hexpands⟩
    refine ⟨q, List.mem_flatten.2 ⟨block, hblock, hq⟩, ?_⟩
    rw [hexpands.holes]
    exact fun next hnext => List.mem_flatMap.2 ⟨id, hin, hnext⟩

/-- A round that succeeds leaves some choice. -/
theorem round_ne_nil (h : round fragments ps = .ok qs) (hps : ps ≠ []) : qs ≠ [] := by
  rcases List.exists_mem_of_ne_nil _ hps with ⟨p, hp⟩
  by_cases hdone : p.fragment.holes = []
  · rcases round_eq_ok h with ⟨blocks, hblocks, rfl⟩
    rcases exists_of_forall₂ hblocks hp with ⟨block, hblock, ⟨-, rfl⟩ | ⟨hne, -⟩⟩
    · exact List.ne_nil_of_mem (List.mem_flatten.2 ⟨[p], hblock, List.mem_singleton.2 rfl⟩)
    · exact absurd hdone hne
  · rcases List.exists_mem_of_ne_nil _ hdone with ⟨hole, hhole⟩
    rcases fillable_of_round hkeyed h hp hole hhole with ⟨id, hid⟩
    rcases exists_of_round hkeyed h hp hhole hid with ⟨q, hq, -⟩
    exact List.ne_nil_of_mem hq

theorem rounds_ne_nil {fuel : Nat} (h : rounds fragments fuel ps = .ok qs) (hps : ps ≠ []) :
    qs ≠ [] := by
  induction fuel generalizing ps with
  | zero =>
    cases h
    exact hps
  | succ fuel ih =>
    rw [rounds] at h
    split at h
    · cases h
      exact hps
    · rcases Except.bind_eq_ok.1 h with ⟨next, hnext, hqs⟩
      exact ih hqs (round_ne_nil hkeyed hnext hps)

/-- If the rounds fill all holes, then every way of filling a hole at their start comes to an end. -/
theorem settles_of_rounds {fuel : Nat} (h : rounds fragments fuel ps = .ok qs)
    (hdone : ∀ q ∈ qs, q.fragment.holes = []) :
    ∀ p ∈ ps, ∀ hole ∈ p.fragment.holes, Settles fragments hole := by
  have hnone : ∀ ps : List PartialVariant, (∀ p ∈ ps, p.fragment.holes = []) →
      ∀ p ∈ ps, ∀ hole ∈ p.fragment.holes, Settles fragments hole := by
    intro ps hps p hp hole hhole
    rw [hps p hp] at hhole
    cases hhole
  induction fuel generalizing ps with
  | zero =>
    cases h
    exact hnone _ hdone
  | succ fuel ih =>
    rw [rounds] at h
    split at h
    · cases h
      exact hnone _ hdone
    · rcases Except.bind_eq_ok.1 h with ⟨next, hnext, hqs⟩
      intro p hp hole hhole
      refine .intro (fillable_of_round hkeyed hnext hp hole hhole) ?_
      -- any hole that this one leads to is open in some result of the round
      rintro after ⟨id, hid, hafter⟩
      rcases exists_of_round hkeyed hnext hp hhole hid with ⟨q, hq, hsub⟩
      exact ih hqs q hq after (hsub hafter)

end Keyed

/-! ## Rounds that fail -/

/-- The partial variants of a fragment that the rounds can come to. -/
inductive Traced (fragments : Table Fragment) (f : Fragment) : PartialVariant → Prop
  | start : Traced fragments f { fragment := f }
  | expand {p q choice} : Traced fragments f p → (∀ hole ∈ p.fragment.holes, hole ∉ p.filled) →
      List.Forall₂ (Fills fragments) choice p.fragment.holes → p.Expands fragments choice q →
      Traced fragments f q

/-- The holes after a step are led to by those before it. -/
theorem Expands.leads {choice : List NodeId} (h : p.Expands fragments choice q)
    (hchoice : List.Forall₂ (Fills fragments) choice p.fragment.holes) :
    ∀ next ∈ q.fragment.holes, ∃ hole ∈ p.fragment.holes, ∃ id, Fills fragments id hole ∧
      next ∈ opened fragments id := by
  intro next hnext
  rw [h.holes] at hnext
  rcases List.mem_flatMap.1 hnext with ⟨id, hid, hopened⟩
  rcases exists_of_forall₂ hchoice hid with ⟨hole, hhole, hfills⟩
  exact ⟨hole, hhole, id, hfills, hopened⟩

namespace Traced

/-- The open holes of a choice are reached from the holes of the fragment. -/
theorem reaches (h : Traced fragments f p) : ∀ hole ∈ p.fragment.holes, f.Reaches fragments hole := by
  induction h with
  | start => exact fun hole hhole => ⟨hole, hhole, .refl⟩
  | expand _ _ hchoice hexpands ih =>
    intro next hnext
    rcases hexpands.leads hchoice next hnext with ⟨hole, hhole, hleads⟩
    rcases ih hole hhole with ⟨start, hstart, hpath⟩
    exact ⟨start, hstart, hpath.tail hleads⟩

/-- The holes of the fragment are filled in the first round. -/
theorem own_filled (h : Traced fragments f p) : f.holes ⊆ p.filled ++ p.fragment.holes := by
  induction h with
  | start => exact List.subset_append_right _ _
  | expand _ _ _ hexpands ih =>
    rw [hexpands.filled]
    exact List.Subset.trans ih (List.subset_append_left _ _)

/-- Every other hole is led to by one that was filled before it. -/
theorem led_to (h : Traced fragments f p) {hole : NodeId} (hhole : hole ∈ p.filled ++ p.fragment.holes) :
    hole ∈ f.holes ∨ ∃ earlier ∈ p.filled, Leads fragments earlier hole := by
  induction h with
  | start => exact .inl hhole
  | expand _ _ hchoice hexpands ih =>
    rw [hexpands.filled] at hhole ⊢
    rcases List.mem_append.1 hhole with hhole | hhole
    · refine (ih hhole).imp_right ?_
      rintro ⟨earlier, hearlier, hleads⟩
      exact ⟨earlier, List.mem_append_left _ hearlier, hleads⟩
    · rcases hexpands.leads hchoice hole hhole with ⟨earlier, hearlier, hleads⟩
      exact .inr ⟨earlier, List.mem_append_right _ hearlier, hleads⟩

section Owned

variable (hkeyed : ∀ entry ∈ fragments.entries, entry.2.id = entry.1) (honce : HolesOwnedOnce fragments)
  (hf : fragments.get? f.id = some f)

include hkeyed honce hf

/-- A hole that comes up again is one of the fragment, and it comes with the fragment itself. -/
theorem mem_holes_of_again (h : Traced fragments f p) {hole : NodeId}
    (hopen : hole ∈ p.fragment.holes) (hfilled : hole ∈ p.filled) (id : NodeId)
    (hid : hole ∈ opened fragments id) : hole ∈ f.holes ∧ id = f.id := by
  cases h with
  | start => cases hfilled
  | @expand p₀ _ choice htraced hnew hchoice hexpands =>
    rcases hexpands.leads hchoice hole hopen with ⟨before, hbefore, hleads⟩
    rw [hexpands.filled] at hfilled
    have hown : hole ∈ f.holes := by
      rcases htraced.led_to hfilled with hown | ⟨earlier, hearlier, hleads'⟩
      · exact hown
      · -- only one hole leads to this one, and it would have come up again a round ago
        cases Leads.unique hkeyed honce hleads hleads'
        exact absurd hearlier (hnew before hbefore)
    refine ⟨hown, eq_of_mem_opened hkeyed honce hid ?_⟩
    rw [opened_of_get? hf]
    exact hown

/-- If a hole comes up again, then the first one found is the first hole of the fragment, and some hole of
the fragment contains itself. -/
theorem again (h : Traced fragments f p) {hole : NodeId}
    (hfind : p.fragment.holes.find? (· ∈ p.filled) = some hole) :
    f.holes.head? = some hole ∧ ∃ own ∈ f.holes, ContainsItself fragments own := by
  have hopen := List.mem_of_find?_eq_some hfind
  have hfilled : hole ∈ p.filled := by simpa using List.find?_some hfind
  have hagain := h.mem_holes_of_again hkeyed honce hf hopen hfilled
  cases h with
  | start => cases hfilled
  | @expand p₀ _ choice htraced hnew hchoice hexpands =>
    rcases hexpands.leads hchoice hole hopen with ⟨before, hbefore, id, hfills, hid⟩
    obtain ⟨hown, rfl⟩ := hagain id hid
    constructor
    · -- the snippets are searched one by one, and only the fragment itself brings filled holes
      rw [hexpands.holes, List.find?_flatMap] at hfind
      rcases List.exists_of_findSome?_eq_some hfind with ⟨id, -, hfirst⟩
      obtain ⟨-, rfl⟩ := hagain id (List.mem_of_find?_eq_some hfirst)
      rw [opened_of_get? hf] at hfirst
      have hall : ∀ own ∈ f.holes, own ∈ p.filled := by
        rw [hexpands.filled]
        exact htraced.own_filled
      generalize f.holes = holes at hfirst hall
      cases holes with
      | nil => cases hfirst
      | cons first rest =>
        rw [List.find?_cons_of_pos (by simpa using hall first List.mem_cons_self)] at hfirst
        exact hfirst
    · -- the fragment fills a hole that one of its own holes leads to
      rcases htraced.reaches before hbefore with ⟨own, hmem, hpath⟩
      refine ⟨own, hmem, TransGen.tail' hpath ⟨f.id, hfills, ?_⟩⟩
      rw [opened_of_get? hf]
      exact hmem

end Owned

end Traced

/-- Expanding fails at a hole that has been filled before or cannot be filled. -/
theorem expand_eq_error (hkeyed : ∀ entry ∈ fragments.entries, entry.2.id = entry.1)
    (h : p.expand fragments = .error fault) :
    (∃ hole, p.fragment.holes.find? (· ∈ p.filled) = some hole ∧
      fault = .invalidSnippet hole .containsItself) ∨
    ∃ hole ∈ p.fragment.holes, ¬ Fillable fragments hole ∧ fault = .unfilledHole hole := by
  unfold expand at h
  split at h
  · next record hrecord =>
    cases h
    -- a hole that has been filled before
    refine .inl ⟨record.id, ?_, rfl⟩
    rw [Fragment.holes, List.find?_map]
    exact congrArg (Option.map EscapeRecord.id) hrecord
  · rcases Except.bind_eq_error.1 h with hoptions | ⟨options, hoptions, hfill⟩
    · rcases mapM_eq_error hoptions with ⟨record, hrecord, hfault⟩
      split at hfault
      · next hnone =>
        cases hfault
        -- a hole without candidates
        exact .inr ⟨record.id, List.mem_map_of_mem hrecord,
          (candidates_eq_nil_iff hkeyed).1 hnone, rfl⟩
      · cases hfault
    · -- every snippet of a choice is there, so the choices themselves cannot fail
      exfalso
      cases options_eq hoptions
      rcases mapM_eq_error hfill with ⟨choice, hchoice, hfault⟩
      rcases Except.bind_eq_error.1 hfault with hfault | ⟨fragment, -, hfault⟩
      · rcases Except.bind_eq_error.1 hfault with hchosen | ⟨snippets, -, hfault⟩
        · rcases mapM_eq_error hchosen with ⟨⟨record, id⟩, hpair, hnone⟩
          have hid := (List.of_mem_zip hpair).2
          rcases exists_of_forall₂ (mem_crossProduct.1 hchoice).2 hid with ⟨set, hset, hin⟩
          rcases List.mem_map.1 hset with ⟨hole, -, rfl⟩
          rcases (mem_candidates hkeyed).1 hin with ⟨snippet, hget, -⟩
          simp [hget] at hnone
        · cases hfault
      · cases hfault

/-- A step of the rounds. -/
theorem Traced.of_round (hkeyed : ∀ entry ∈ fragments.entries, entry.2.id = entry.1)
    (h : round fragments ps = .ok qs) (hps : ∀ p ∈ ps, Traced fragments f p) :
    ∀ q ∈ qs, Traced fragments f q := by
  rcases round_eq_ok h with ⟨blocks, hblocks, rfl⟩
  intro q hq
  rcases List.mem_flatten.1 hq with ⟨block, hblock, hq⟩
  rcases exists_of_forall₂ hblocks.flip hblock with ⟨p, hp, hstep⟩
  rcases hstep with ⟨-, rfl⟩ | ⟨hne, hnew, hqs⟩
  · rw [List.mem_singleton] at hq
    exact hq ▸ hps p hp
  · rcases exists_of_forall₂ hqs.flip hq with ⟨choice, hchoice, hexpands⟩
    exact .expand (hps p hp) hnew ((mem_crossProduct_candidates hkeyed hne).1 hchoice) hexpands

/-- The rounds fail at a hole that cannot be filled or because the fragment contains itself. -/
theorem rounds_eq_error (hkeyed : ∀ entry ∈ fragments.entries, entry.2.id = entry.1)
    (honce : HolesOwnedOnce fragments) (hf : fragments.get? f.id = some f) {fuel : Nat}
    (h : rounds fragments fuel ps = .error fault) (hps : ∀ p ∈ ps, Traced fragments f p) :
    (∃ hole, fault = .unfilledHole hole ∧ f.Reaches fragments hole ∧ ¬ Fillable fragments hole) ∨
    ∃ hole, fault = .invalidSnippet hole .containsItself ∧ f.holes.head? = some hole ∧
      ∃ own ∈ f.holes, ContainsItself fragments own := by
  induction fuel generalizing ps with
  | zero => cases h
  | succ fuel ih =>
    rw [rounds] at h
    split at h
    · cases h
    · rcases Except.bind_eq_error.1 h with hround | ⟨next, hnext, hrest⟩
      · rcases Except.bind_eq_error.1 hround with hblocks | ⟨blocks, -, hfault⟩
        · rcases mapM_eq_error hblocks with ⟨p, hp, hexpand⟩
          split at hexpand
          · cases hexpand
          · rcases expand_eq_error hkeyed hexpand with ⟨hole, hfind, rfl⟩ | ⟨hole, hhole, hnone, rfl⟩
            · exact .inr ⟨hole, rfl, (hps p hp).again hkeyed honce hf hfind⟩
            · exact .inl ⟨hole, rfl, (hps p hp).reaches hole hhole, hnone⟩
        · cases hfault
      · exact ih hrest (Traced.of_round hkeyed hnext hps)

end PartialVariant

/-! ## Fragments and tables -/

section Variants

variable (hkeyed : ∀ entry ∈ fragments.entries, entry.2.id = entry.1)

include hkeyed

/-- Success of the rounds: all holes are filled, and there is at least one variant. -/
theorem variants?_eq_ok {vs : List Variant} (h : f.variants? fragments = .ok (some vs)) :
    vs ≠ [] ∧ ∀ hole ∈ f.holes, Settles fragments hole := by
  unfold Fragment.variants? at h
  split at h
  · cases h
  · rcases Except.bind_eq_ok.1 h with ⟨done, hrounds, hvs⟩
    cases hvs
    have hdone := (PartialVariant.rounds_eq_ok hkeyed f hrounds
      (PartialVariant.within_start f) (List.pairwise_singleton _ _)).1
    constructor
    · simpa using PartialVariant.rounds_ne_nil hkeyed hrounds (by simp)
    · exact PartialVariant.settles_of_rounds hkeyed hrounds hdone _ (List.mem_singleton.2 rfl)

/-- Failure of the rounds. -/
theorem variants?_eq_error (honce : HolesOwnedOnce fragments) (hf : fragments.get? f.id = some f)
    {fault : Fault} (h : f.variants? fragments = .error fault) :
    (∃ hole, fault = .unfilledHole hole ∧ f.Reaches fragments hole ∧ ¬ Fillable fragments hole) ∨
    ∃ hole, fault = .invalidSnippet hole .containsItself ∧ f.holes.head? = some hole ∧
      ∃ own ∈ f.holes, ContainsItself fragments own := by
  unfold Fragment.variants? at h
  split at h
  · cases h
  · rcases Except.bind_eq_error.1 h with hrounds | ⟨done, -, hvs⟩
    · refine PartialVariant.rounds_eq_error hkeyed honce hf hrounds ?_
      exact List.forall_mem_singleton.2 .start
    · cases hvs

/-- The lists in a table of variants are those of its fragments. -/
theorem variants?_of_variantTable {table : VariantTable} {id : NodeId} {vs : List Variant}
    (htable : variantTable fragments = .ok table) (h : table.get? id = some (some vs)) :
    ∃ f, fragments.get? id = some f ∧ f.variants? fragments = .ok (some vs) := by
  rcases Except.bind_eq_ok.1 htable with ⟨entries, hentries, hof⟩
  cases hof
  rcases exists_of_forall₂ (mapM_eq_ok.1 hentries).flip (Table.mem_of_get?_ofList h) with ⟨f, hf, hpair⟩
  rcases Except.bind_eq_ok.1 hpair with ⟨variants, hvariants, hpure⟩
  cases hpure
  rcases List.mem_map.1 hf with ⟨⟨key, f⟩, hentry, rfl⟩
  have hkey : f.id = key := hkeyed _ hentry
  refine ⟨f, ?_, hvariants⟩
  rw [hkey]
  exact Table.get?_eq_some_iff.2 hentry

omit hkeyed in
/-- Exactly the fragments without holes have no variants. -/
theorem variants?_eq_none_iff : f.variants? fragments = .ok none ↔ f.holes = [] := by
  have hempty : f.ownSnippet.isEmpty = true ↔ f.holes = [] := by simp [Fragment.holes]
  unfold Fragment.variants?
  split
  · next h => simp [hempty.1 h]
  · next h =>
    constructor
    · intro hnone
      rcases Except.bind_eq_ok.1 hnone with ⟨done, -, hvs⟩
      cases hvs
    · intro hholes
      exact absurd (hempty.2 hholes) h

end Variants

/-- **When a fragment has variants.** Take a table where each fragment stands under its identity and no
hole stands in two of them. A fragment with holes has variants if and only if every hole that it reaches
can be filled and does not contain itself; there is at least one variant then. Otherwise the fault names
a hole that it reaches and that cannot be filled, or it names the first hole of the fragment, and some
hole of the fragment contains itself. A fragment without holes has no list of variants, so no list of
variants in the table of all fragments is empty. -/
theorem variants_exist_iff {fragments : Table Fragment}
    (hkeyed : ∀ entry ∈ fragments.entries, entry.2.id = entry.1) (honce : HolesOwnedOnce fragments)
    {f : Fragment} (hf : fragments.get? f.id = some f) :
    (f.holes ≠ [] →
      ((∃ vs, f.variants? fragments = .ok (some vs)) ↔
        ∀ hole, f.Reaches fragments hole → Fillable fragments hole ∧ ¬ ContainsItself fragments hole)) ∧
    (∀ vs, f.variants? fragments = .ok (some vs) → vs ≠ []) ∧
    (∀ fault, f.variants? fragments = .error fault →
      (∃ hole, fault = .unfilledHole hole ∧ f.Reaches fragments hole ∧ ¬ Fillable fragments hole) ∨
      ∃ hole, fault = .invalidSnippet hole .containsItself ∧ f.holes.head? = some hole ∧
        ∃ own ∈ f.holes, ContainsItself fragments own) ∧
    (f.holes = [] → f.variants? fragments = .ok none) ∧
    ∀ table, variantTable fragments = .ok table → ∀ id vs, table.get? id = some (some vs) → vs ≠ [] := by
  refine ⟨fun hholes => ⟨?_, ?_⟩, fun vs h => (variants?_eq_ok hkeyed h).1,
    fun fault h => variants?_eq_error hkeyed honce hf h, variants?_eq_none_iff.2, ?_⟩
  · rintro ⟨vs, hvs⟩ hole ⟨start, hstart, hpath⟩
    have hsettles := ((variants?_eq_ok hkeyed hvs).2 start hstart).of_reaches hpath
    exact ⟨hsettles.fillable, hsettles.not_containsItself⟩
  · intro hall
    rcases hvariants : f.variants? fragments with fault | _ | vs
    · rcases variants?_eq_error hkeyed honce hf hvariants with
        ⟨hole, -, hreaches, hnone⟩ | ⟨-, -, -, own, hown, hcycle⟩
      · exact absurd (hall hole hreaches).1 hnone
      · exact absurd hcycle (hall own ⟨own, hown, .refl⟩).2
    · exact absurd (variants?_eq_none_iff.1 hvariants) hholes
    · exact ⟨vs, rfl⟩
  · intro table htable id vs hget
    rcases variants?_of_variantTable hkeyed htable hget with ⟨g, -, hvariants⟩
    exact (variants?_eq_ok hkeyed hvariants).1

/-- A fragment with two holes that can fill the second one itself. -/
def looping : Fragment := holder 9 [11, 13] (some 13)

/-- Besides, fragment 2 can fill the first hole and fragment 6 the second one. -/
def looped : Table Fragment :=
  Table.ofList ([holder 2 [] (some 11), holder 6 [] (some 13), looping].map fun f => (f.id, f))

/-- The fragment reaches a hole that contains itself. -/
theorem variants_exist_iff_looped :
    (∀ entry ∈ looped.entries, entry.2.id = entry.1) ∧ HolesOwnedOnce looped ∧
    looped.get? looping.id = some looping ∧
    (¬ ∀ hole, looping.Reaches looped hole → Fillable looped hole ∧ ¬ ContainsItself looped hole) ∧
    ∃ own ∈ [11, 13], ContainsItself looped own := by
  have hkeyed : ∀ entry ∈ looped.entries, entry.2.id = entry.1 := by decide
  have honce : HolesOwnedOnce looped := by decide
  have hget : looped.get? looping.id = some looping := rfl
  have hfault : looping.variants? looped = .error (.invalidSnippet 11 .containsItself) := rfl
  obtain ⟨hiff, -, herror, -⟩ := variants_exist_iff hkeyed honce hget
  refine ⟨hkeyed, honce, hget, fun hall => ?_, ?_⟩
  · rcases (hiff (List.cons_ne_nil _ _)).2 hall with ⟨vs, hvs⟩
    rw [hfault] at hvs
    cases hvs
  · rcases herror _ hfault with ⟨hole, heq, -⟩ | ⟨hole, -, -, hown⟩
    · cases heq
    · exact hown

/-- The fault can name a hole that does not contain itself, in place of the next one, which does. -/
theorem fault_names_other_hole :
    (∀ entry ∈ looped.entries, entry.2.id = entry.1) ∧ HolesOwnedOnce looped ∧
    looped.get? looping.id = some looping ∧
    looping.variants? looped = .error (.invalidSnippet 11 .containsItself) ∧
    ¬ ContainsItself looped 11 := by
  have hkeyed : ∀ entry ∈ looped.entries, entry.2.id = entry.1 := by decide
  refine ⟨hkeyed, by decide, rfl, rfl, fun hcycle => ?_⟩
  -- only fragment 2 can fill the hole, and it has none itself
  rcases TransGen.head'_iff.1 hcycle with ⟨next, ⟨id, hfills, hnext⟩, -⟩
  obtain rfl : id = 2 := by
    have hcandidates : candidates looped 11 = [2] := rfl
    rw [← mem_candidates hkeyed, hcandidates, List.mem_singleton] at hfills
    exact hfills
  cases hnext

end Multistage
