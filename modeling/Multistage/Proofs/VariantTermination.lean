import Multistage.Proofs.CrossProduct
import Multistage.Proofs.HoleGraph

/-!
# The rounds of filling holes come to an end

As long as a partial variant has holes, another round follows, and the snippets of a round bring new holes
with them. So there may be more holes after a round than before it, and nothing is asked of the table:
snippets may contain each other, and a fragment may stand under a key that is not its identity.

`PartialVariant.After` has the states of this loop, without any bound on their number. What ends it is that
a hole which comes up again is a fault. Each round that succeeds fills holes that had not been filled before
(`PartialVariant.Advances`), and all of them are among the holes of the fragment and of the table.

Main statement: `variant_rounds_terminate`.
-/

namespace Multistage

namespace PartialVariant

/-! ## The loop -/

/-- The partial variants of a fragment after a number of rounds. There is a next round as long as one of
them has a hole. -/
inductive After (fragments : Table Fragment) (f : Fragment) : Nat → List PartialVariant → Prop
  | start : After fragments f 0 [{ fragment := f }]
  | next {n : Nat} {ps qs : List PartialVariant} : After fragments f n ps → ps.all isDone = false →
      round fragments ps = .ok qs → After fragments f (n + 1) qs

/-- There is no further round, and this is the result. -/
inductive Ends (fragments : Table Fragment) (ps : List PartialVariant) :
    Except Fault (List PartialVariant) → Prop
  | done : ps.all isDone = true → Ends fragments ps (.ok ps)
  | fails {fault : Fault} : ps.all isDone = false → round fragments ps = .error fault →
      Ends fragments ps (.error fault)

/-- What a round makes of a partial variant. One without holes stays as it is. Any other gives way to one or
more in which further holes are filled: known ones, that had not been filled before. -/
inductive Advances (known : List NodeId) (p : PartialVariant) : List PartialVariant → Prop
  | done : p.isDone = true → Advances known p [p]
  | filled {qs : List PartialVariant} : p.isDone = false → qs ≠ [] →
      (∀ q ∈ qs, ∃ new, new ≠ [] ∧ q.filled = p.filled ++ new ∧
        ∀ hole ∈ new, hole ∈ known ∧ hole ∉ p.filled) →
      Advances known p qs

variable {fragments : Table Fragment} {f : Fragment} {p : PartialVariant} {ps qs : List PartialVariant}

/-! ## One round -/

/-- A partial variant with holes is not lost when they are filled. -/
theorem expand_ne_nil (h : p.expand fragments = .ok qs) (hne : p.fragment.holes ≠ []) : qs ≠ [] := by
  have hlength := (expand_eq_ok h).2.length_eq
  unfold expand at h
  split at h
  · cases h
  · rcases Except.bind_eq_ok.1 h with ⟨options, hoptions, -⟩
    have hsets : p.fragment.holes.map (candidates fragments) ≠ [] := by
      intro hnil
      exact hne (List.map_eq_nil_iff.1 hnil)
    have hpos : 0 < (crossProduct (p.fragment.holes.map (candidates fragments))).length := by
      rw [crossProduct_eq_combinations hsets, length_combinations]
      refine MixedRadix.size_pos (List.forall_mem_map.2 (List.forall_mem_map.2 fun hole hhole => ?_))
      exact List.length_pos_iff.2 (candidates_ne_nil hoptions hole hhole)
    rw [hlength] at hpos
    exact List.ne_nil_of_length_pos hpos

/-- Expanding fills all holes, none of which had been filled. -/
theorem advances_of_expand (h : p.expand fragments = .ok qs) (hdone : p.isDone = false)
    (hknown : p.fragment.holes ⊆ allHoles fragments f) : p.Advances (allHoles fragments f) qs := by
  have hne : p.fragment.holes ≠ [] := by
    intro hnil
    rw [isDone_iff.2 hnil] at hdone
    cases hdone
  rcases expand_eq_ok h with ⟨hnew, hqs⟩
  refine .filled hdone (expand_ne_nil h hne) fun q hq => ?_
  rcases exists_of_forall₂ hqs.flip hq with ⟨choice, -, hexpands⟩
  exact ⟨p.fragment.holes, hne, hexpands.filled, fun hole hhole => ⟨hknown hhole, hnew hole hhole⟩⟩

/-- A round advances every variant that is not done. -/
theorem advances_of_round (h : round fragments ps = .ok qs)
    (hknown : ∀ p ∈ ps, p.fragment.holes ⊆ allHoles fragments f) :
    ∃ blocks, qs = blocks.flatten ∧ List.Forall₂ (Advances (allHoles fragments f)) ps blocks := by
  rcases Except.bind_eq_ok.1 h with ⟨blocks, hblocks, hqs⟩
  cases hqs
  refine ⟨blocks, rfl, ((List.forall₂_and_left _ _).2 ⟨hknown, mapM_eq_ok.1 hblocks⟩).imp ?_⟩
  rintro p block ⟨hholes, hblock⟩
  cases hdone : p.isDone with
  | true =>
    rw [hdone] at hblock
    cases hblock
    exact .done hdone
  | false =>
    rw [hdone] at hblock
    exact advances_of_expand hblock hdone hholes

/-- While a hole can be filled that had not been filled before, there is one more to count. -/
theorem remaining_pos {known : List NodeId} (hne : p.fragment.holes ≠ [])
    (hnew : ∀ hole ∈ p.fragment.holes, hole ∉ p.filled) (hknown : p.fragment.holes ⊆ known) :
    0 < p.remaining known := by
  rcases List.exists_mem_of_ne_nil _ hne with ⟨hole, hhole⟩
  refine List.length_pos_of_mem (a := hole) (List.mem_filter.2 ⟨hknown hhole, ?_⟩)
  simpa using hnew hole hhole

/-! ## All rounds -/

namespace After

variable {n fuel : Nat}

/-- With each round there are fewer holes left to fill, in every partial variant that has any, and as long as
there is one there are holes left. -/
theorem counted (h : After fragments f n ps) :
    n ≤ holeCount (f :: fragments.values) ∧ ∀ p ∈ ps, p.fragment.holes = [] ∨
      p.Within (allHoles fragments f) (holeCount (f :: fragments.values) + 1 - n) := by
  induction h with
  | start => exact ⟨Nat.zero_le _, within_start f⟩
  | @next n ps qs _ hopen hround ih =>
    rcases ih with ⟨-, hwithin⟩
    rcases round_eq_ok hround with ⟨blocks, hblocks, rfl⟩
    have hle : n + 1 ≤ holeCount (f :: fragments.values) := by
      -- some partial variant had holes, and the round has found them new
      rcases List.all_eq_false.1 hopen with ⟨p, hp, hdone⟩
      have hne : p.fragment.holes ≠ [] := fun hnil => hdone (isDone_iff.2 hnil)
      rcases exists_of_forall₂ hblocks hp with ⟨block, -, ⟨hnil, -⟩ | ⟨-, hnew, -⟩⟩
      · exact absurd hnil hne
      · rcases hwithin p hp with hnil | ⟨hknown, hlt⟩
        · exact absurd hnil hne
        · have hpos := remaining_pos hne hnew hknown
          omega
    refine ⟨hle, fun q hq => ?_⟩
    have hfuel : holeCount (f :: fragments.values) + 1 - n =
        holeCount (f :: fragments.values) + 1 - (n + 1) + 1 := by omega
    rw [hfuel] at hwithin
    rcases List.mem_flatten.1 hq with ⟨block, hblock, hq⟩
    rcases exists_of_forall₂ hblocks.flip hblock with ⟨p, hp, hstep⟩
    exact Step.within hstep hq (hwithin p hp)

/-- After any number of rounds the open holes are among those of the table. -/
theorem holes_subset (h : After fragments f n ps) : ∀ p ∈ ps, p.fragment.holes ⊆ allHoles fragments f := by
  intro p hp
  rcases h.counted.2 p hp with hnil | ⟨hknown, -⟩
  · rw [hnil]
    exact List.nil_subset _
  · exact hknown

/-- With fuel for as many rounds as there can be, the result is that of the loop. -/
theorem rounds_end (h : After fragments f n ps) (hfuel : n + fuel = holeCount (f :: fragments.values) + 1) :
    ∃ m last, After fragments f m last ∧ Ends fragments last (rounds fragments fuel ps) := by
  induction fuel generalizing n ps with
  | zero =>
    have hle := h.counted.1
    omega
  | succ fuel ih =>
    rw [rounds]
    cases hdone : ps.all isDone with
    | true => exact ⟨n, ps, h, .done hdone⟩
    | false =>
      cases hround : round fragments ps with
      | error fault => exact ⟨n, ps, h, .fails hdone hround⟩
      | ok qs => exact ih (h.next hdone hround) (by omega)

end After

end PartialVariant

open PartialVariant

/-- **The variants of a fragment are found in finitely many rounds.** This is so for any table and any
fragment. There are no more rounds than the fragment and the table have holes. A round fails, or it fills, in
each partial variant that has holes, holes of the fragment or of the table that had not been filled in it
before. So the loop ends, and the variants are those that it ends with, or the fault is the one that it ends
with. -/
theorem variant_rounds_terminate (fragments : Table Fragment) (f : Fragment) :
    (∀ n ps, After fragments f n ps →
      n ≤ holeCount (f :: fragments.values) ∧
      ((∃ fault, round fragments ps = .error fault) ∨
        ∃ blocks, round fragments ps = .ok blocks.flatten ∧
          List.Forall₂ (Advances (allHoles fragments f)) ps blocks)) ∧
    (f.holes = [] → f.variants? fragments = .ok none) ∧
    (f.holes ≠ [] → ∃ n last result, After fragments f n last ∧ Ends fragments last result ∧
      f.variants? fragments = result.map fun done =>
        some (done.map fun p => ⟨f.id, p.config, Table.empty.insert f.id p.fragment⟩)) := by
  refine ⟨fun n ps hafter => ⟨hafter.counted.1, ?_⟩, variants?_eq_none_iff.2, fun hholes => ?_⟩
  · cases hround : round fragments ps with
    | error fault => exact .inl ⟨fault, rfl⟩
    | ok qs =>
      rcases advances_of_round hround hafter.holes_subset with ⟨blocks, rfl, hblocks⟩
      exact .inr ⟨blocks, rfl, hblocks⟩
  · have hempty : ¬ f.ownSnippet.isEmpty = true := fun h => hholes (by simpa [Fragment.holes] using h)
    have hstart : After fragments f 0 [{ fragment := f }] := .start
    rcases hstart.rounds_end (Nat.zero_add _) with ⟨n, last, hafter, hends⟩
    refine ⟨n, last, _, hafter, hends, ?_⟩
    rw [Fragment.variants?, if_neg hempty]
    dsimp only
    cases rounds fragments (holeCount (f :: fragments.values) + 1) [{ fragment := f }] <;> rfl

/-- Each fragment stands under the identity of the other one, and each brings the hole 10. -/
def misplaced : Table Fragment := Table.ofList [(1, holder 2 [10] (some 10)), (2, holder 1 [10, 10] (some 11))]

/-- The first round fills all three holes, which leaves five, and the second one finds the hole 10 again. -/
theorem variant_rounds_terminate_misplaced :
    holeCount (holder 5 [10, 11, 10] none :: misplaced.values) = 6 ∧
    (holder 5 [10, 11, 10] none).variants? misplaced = .error (.invalidSnippet 10 .containsItself) ∧
    (∃ blocks, round misplaced [{ fragment := holder 5 [10, 11, 10] none }] = .ok blocks.flatten ∧
      blocks.flatten.map (·.fragment.holes) = [[10, 10, 10, 10, 10]] ∧
      List.Forall₂ (Advances [10, 11, 10, 10, 10, 10]) [{ fragment := holder 5 [10, 11, 10] none }] blocks) ∧
    ∃ n last, n ≤ 6 ∧ After misplaced (holder 5 [10, 11, 10] none) n last ∧
      Ends misplaced last (.error (.invalidSnippet 10 .containsItself)) := by
  have hfault : (holder 5 [10, 11, 10] none).variants? misplaced =
      .error (.invalidSnippet 10 .containsItself) := rfl
  obtain ⟨hrounds, -, hresult⟩ := variant_rounds_terminate misplaced (holder 5 [10, 11, 10] none)
  refine ⟨rfl, hfault, ?_, ?_⟩
  · rcases (hrounds 0 _ .start).2 with ⟨fault, herror⟩ | ⟨blocks, hblocks, hadvances⟩
    · cases herror
    · have hholes : (round misplaced [{ fragment := holder 5 [10, 11, 10] none }]).map
          (fun qs => qs.map (·.fragment.holes)) = .ok [[10, 10, 10, 10, 10]] := rfl
      rw [hblocks] at hholes
      exact ⟨blocks, hblocks, Except.ok.inj hholes, hadvances⟩
  · rcases hresult (List.cons_ne_nil _ _) with ⟨n, last, result, hafter, hends, hsame⟩
    rw [hfault] at hsame
    cases result with
    | ok done => cases hsame
    | error fault =>
      cases hsame
      exact ⟨n, last, (hrounds n last hafter).1, hafter, hends⟩

end Multistage
