import Multistage.Proofs.HoleGraph

/-!
# What all variants have

The variants of a fragment are made in rounds, and a round fills the holes of each partial variant with
every choice of snippets. `PartialVariant.Grows` is what this does to one of them. Whatever it keeps is true
of all variants, if it is true of the fragment: `Fragment.variants?_rounds` and, for what is said of the code
alone, `Fragment.variants?_induction`.
-/

namespace Multistage

variable {fragments : Table Fragment} {f : Fragment}

/-- The holes of `p` have been filled with the snippets of a choice. -/
structure PartialVariant.Grows (fragments : Table Fragment) (p : PartialVariant) (choice : List NodeId)
    (q : PartialVariant) : Prop where
  fits : List.Forall₂ (Fills fragments) choice p.fragment.holes
  fill : p.fragment.fill fragments choice = .ok q.fragment
  config : q.config = p.config ++ choice

/-- Filling keeps the property of fragments. -/
def KeptByFilling (fragments : Table Fragment) (P : Fragment → Prop) : Prop :=
  ∀ f g choice, P f → f.fill fragments choice = .ok g → List.Forall₂ (Fills fragments) choice f.holes → P g

section Rounds

variable {ps qs : List PartialVariant} (hkeyed : ∀ entry ∈ fragments.entries, entry.2.id = entry.1)

include hkeyed

/-- What expanding gives has grown by a choice of snippets. -/
theorem PartialVariant.grows_of_expand {p q : PartialVariant} (h : p.expand fragments = .ok qs)
    (hne : p.fragment.holes ≠ []) (hq : q ∈ qs) : ∃ choice, p.Grows fragments choice q := by
  unfold expand at h
  split at h
  · cases h
  · rcases Except.bind_eq_ok.1 h with ⟨options, hoptions, hqs⟩
    rw [options_eq hoptions] at hqs
    rcases exists_of_forall₂ (mapM_eq_ok.1 hqs).flip hq with ⟨choice, hchoice, hfill⟩
    rcases Except.bind_eq_ok.1 hfill with ⟨fragment, hfragment, hpure⟩
    cases hpure
    exact ⟨choice, (mem_crossProduct_candidates hkeyed hne).1 hchoice, hfragment, rfl⟩

section Partial

variable {P : PartialVariant → Prop} (hgrow : ∀ p q choice, P p → p.Grows fragments choice q → P q)

include hgrow

/-- What each partial variant keeps is kept by a round. -/
theorem PartialVariant.round_induction (h : round fragments ps = .ok qs) (hps : ∀ p ∈ ps, P p) :
    ∀ q ∈ qs, P q := by
  rcases Except.bind_eq_ok.1 h with ⟨blocks, hblocks, hqs⟩
  cases hqs
  intro q hq
  rcases List.mem_flatten.1 hq with ⟨block, hblock, hq⟩
  rcases exists_of_forall₂ (mapM_eq_ok.1 hblocks).flip hblock with ⟨p, hp, hstep⟩
  split at hstep
  · cases hstep
    rw [List.mem_singleton.1 hq]
    exact hps p hp
  · next hdone =>
    have hne : p.fragment.holes ≠ [] := fun hholes => hdone (isDone_iff.2 hholes)
    rcases grows_of_expand hkeyed hstep hne hq with ⟨choice, hgrows⟩
    exact hgrow p q choice (hps p hp) hgrows

/-- What a round keeps holds after all rounds. -/
theorem PartialVariant.rounds_induction {fuel : Nat} (h : rounds fragments fuel ps = .ok qs)
    (hps : ∀ p ∈ ps, P p) : ∀ q ∈ qs, P q := by
  induction fuel generalizing ps with
  | zero =>
    cases h
    exact hps
  | succ fuel ih =>
    rw [rounds] at h
    split at h
    · cases h
      exact hps
    · rcases Except.bind_eq_ok.1 h with ⟨next, hnext, hqs⟩
      exact ih hqs (round_induction hkeyed hgrow hnext hps)

/-- A variant is a partial variant with no hole left to fill. -/
theorem Fragment.variants?_rounds {vs : List Variant} (h : f.variants? fragments = .ok (some vs))
    (hf : P { fragment := f }) : ∀ v ∈ vs, ∃ p, P p ∧ p.fragment.holes = [] ∧
      v = ⟨f.id, p.config, Table.empty.insert f.id p.fragment⟩ := by
  unfold variants? at h
  split at h
  · cases h
  · rcases Except.bind_eq_ok.1 h with ⟨done, hrounds, hvs⟩
    cases hvs
    have hdone := (PartialVariant.rounds_eq_ok hkeyed f hrounds
      (PartialVariant.within_start f) (List.pairwise_singleton _ _)).1
    have hkept := PartialVariant.rounds_induction hkeyed hgrow hrounds (List.forall_mem_singleton.2 hf)
    intro v hv
    rcases List.mem_map.1 hv with ⟨last, hlast, rfl⟩
    exact ⟨last, hkept last hlast, hdone last hlast, rfl⟩

end Partial

/-- What filling keeps holds of every variant of a fragment, and there is no hole left to fill. -/
theorem Fragment.variants?_induction {P : Fragment → Prop} (hfill : KeptByFilling fragments P)
    {vs : List Variant} (h : f.variants? fragments = .ok (some vs)) (hf : P f) :
    ∀ v ∈ vs, ∀ id g, v.fragments.get? id = some g → P g ∧ g.holes = [] := by
  intro v hv id g hg
  have hgrow : ∀ (p q : PartialVariant) choice, P p.fragment → p.Grows fragments choice q → P q.fragment :=
    fun p q choice hp hgrows => hfill p.fragment q.fragment choice hp hgrows.fill hgrows.fits
  rcases variants?_rounds hkeyed hgrow h hf v hv with ⟨p, hp, hdone, rfl⟩
  rw [Table.get?_insert] at hg
  split at hg
  · cases hg
    exact ⟨hp, hdone⟩
  · cases hg

end Rounds

end Multistage
