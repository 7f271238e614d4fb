import Multistage.Proofs.ExplicitReferences

/-!
# Names are looked up at their own level

Where all references across stages are explicit, a name is looked up under as many quotes as it is bound
under: `OwnLevels` says this of all nodes of a term, with the scopes that a table records for them. Making
references explicit brings it about (`ownLevels_of_run`), the scopes of the new term agree with those of
the old one (`Keeps.scopes`), and a term that has it already is left alone (`explicitAt_of_ownLevels`).

Main statement: `makeExplicit_idempotent`.
-/

namespace Multistage

open Term

variable {p : Prelude} {c : Context} {t t' : Term} {j : Judgement} {log : Log} {types : TypeTable}
  {u u' : Supply}

/-! ## The parts of a judged term -/

/-- Each of several judged terms is judged on its own. -/
theorem JudgedAll.member {ts : List Term} {tys : List Ty} (h : JudgedAll p c ts tys log) {child : Term}
    (hchild : child ∈ ts) : ∃ j below, Judged p c child j below ∧ below ⊆ log := by
  induction ts generalizing tys log with
  | nil => cases hchild
  | cons head rest ih =>
    cases h with
    | cons hhead hrest =>
      rcases List.mem_cons.1 hchild with rfl | hchild
      · exact ⟨_, _, hhead, List.subset_append_left _ _⟩
      · rcases ih hrest hchild with ⟨j, below, hj, hsub⟩
        exact ⟨j, below, hj, List.Subset.trans hsub (List.subset_append_right _ _)⟩

/-- A part of a judged term is judged at the level that the node around it gives. No escape stands at
level 0, so the levels are the same whether they are counted with or without negative numbers. -/
theorem Judged.child (h : Judged p c t j log) {child : Term} (hchild : child ∈ t.children) :
    ∃ c' j' below, Judged p c' child j' below ∧ below ⊆ log ∧ c'.level = t.innerLevel c.level ∧
      (c'.level : Int) = t.levelBelow c.level := by
  have hfirst : ∀ (a b : Log) e, a ⊆ a ++ b ++ [e] := by
    intro a b e
    simp
  have hsecond : ∀ (a b : Log) e, b ⊆ a ++ b ++ [e] := by
    intro a b e
    simp
  cases h with
  | literal | lookup | host => cases hchild
  | seq hl hr | binary hl hr hrule =>
    rcases List.mem_pair.1 hchild with rfl | rfl
    · exact ⟨_, _, _, hl, hfirst _ _ _, rfl, rfl⟩
    · exact ⟨_, _, _, hr, hsecond _ _ _, rfl, rfl⟩
  | define hv | assign hv hrule | unary hv hrule | run hv hrule | lambda hparams hv =>
    cases List.mem_singleton.1 hchild
    exact ⟨_, _, _, hv, List.subset_append_left _ _, rfl, rfl⟩
  | quote hb =>
    cases List.mem_singleton.1 hchild
    exact ⟨_, _, _, hb, List.subset_append_left _ _, rfl, Int.natCast_succ _⟩
  | escape hlevel hb hrule =>
    cases List.mem_singleton.1 hchild
    refine ⟨_, _, _, hb, List.subset_append_left _ _, rfl, ?_⟩
    -- there is a quote to leave, so that the subtraction is exact
    show ((c.level - 1 : Nat) : Int) = c.level - 1
    omega
  | call hf ha hrule =>
    rcases List.mem_cons.1 hchild with rfl | hchild
    · exact ⟨_, _, _, hf, hfirst _ _ _, rfl, rfl⟩
    · rcases ha.member hchild with ⟨j', below, hj', hsub⟩
      exact ⟨c, j', below, hj', List.Subset.trans hsub (hsecond _ _ _), rfl, rfl⟩

/-! ## Lookups and levels -/

/-- Every name that is looked up in a term at `level`, and that is bound in the scope which the table
records for the lookup, is bound at the level of the lookup. -/
def OwnLevels (types : TypeTable) (level : Int) (t : Term) : Prop :=
  ∀ entry ∈ t.nodesAt level, ∀ s name, entry.2 = .lookup s name →
    ∃ j, types.get? s.id = some j ∧ ∀ b, j.scope.lookup? name = some b → (b.level : Int) = entry.1

theorem ownLevels_lookup_iff {level : Int} {s : Site} {name : String} :
    OwnLevels types level (.lookup s name) ↔
      ∃ j, types.get? s.id = some j ∧ ∀ b, j.scope.lookup? name = some b → (b.level : Int) = level := by
  have hnodes : (lookup s name).nodesAt level = [(level, .lookup s name)] := rfl
  rw [OwnLevels, hnodes]
  simp

/-- For a node that is no lookup, the condition is one on its parts. -/
theorem ownLevels_iff (ht : t.tag ≠ .lookup) {level : Int} :
    OwnLevels types level t ↔ ∀ child ∈ t.children, OwnLevels types (t.levelBelow level) child := by
  constructor
  · intro h child hchild entry hentry
    refine h entry ?_
    rw [nodesAt_eq]
    exact List.mem_cons_of_mem _ (List.mem_flatMap.2 ⟨child, hchild, hentry⟩)
  · intro h entry hentry s name hname
    rw [nodesAt_eq] at hentry
    rcases List.mem_cons.1 hentry with rfl | hentry
    · exact absurd (congrArg tag hname) ht
    · rcases List.mem_flatMap.1 hentry with ⟨child, hchild, hentry⟩
      exact h child hchild entry hentry s name hname

/-- Wrapping a term in escapes moves it that many levels down. -/
theorem ownLevels_persistTimes {count : Nat} {level : Int}
    (hrun : (t.persistTimes count).run u = .ok (t', u')) (h : OwnLevels types (level - count) t) :
    OwnLevels types level t' := by
  induction count generalizing level t' u' with
  | zero =>
    cases hrun
    simpa using h
  | succ count ih =>
    rw [persistTimes] at hrun
    rcases run_bind_eq_ok.1 hrun with ⟨inner, u₁, hinner, h₁⟩
    rcases run_bind_eq_ok.1 h₁ with ⟨id, u₂, -, h₂⟩
    cases h₂
    have hlevel : level - (count + 1 : Nat) = level - 1 - count := by omega
    rw [hlevel] at h
    rw [ownLevels_iff (by simp [tag])]
    exact List.forall_mem_singleton.2 (ih hinner h)

/-- Under the escapes that are put around it, a name is looked up at its own level. -/
theorem ownLevels_explicitLookup {s : Site} {name : String} {level : Nat} (hj : types.get? s.id = some j)
    (hrun : (explicitLookup s name j.scope level).run u = .ok (t', u')) : OwnLevels types level t' := by
  rcases explicitLookup_cases hrun with ⟨hnone, rfl, -⟩ | ⟨binding, hbound, hle, hpersist⟩
  · refine ownLevels_lookup_iff.2 ⟨j, hj, fun b hb => ?_⟩
    rw [hnone] at hb
    cases hb
  · refine ownLevels_persistTimes hpersist (ownLevels_lookup_iff.2 ⟨j, hj, fun b hb => ?_⟩)
    rw [hbound] at hb
    cases hb
    omega

/-! ## The pass and the levels -/

/-- What a list becomes is made of what its members become. -/
theorem mapM_run_eq_ok {σ ε α β : Type} {f : α → StateT σ (Except ε) β} {l : List α} {r : List β}
    {s s' : σ} (h : (l.mapM f).run s = .ok (r, s')) :
    r.length = l.length ∧ ∀ b ∈ r, ∃ a ∈ l, ∃ s₁ s₂, (f a).run s₁ = .ok (b, s₂) := by
  induction l generalizing r s with
  | nil =>
    cases h
    exact ⟨rfl, List.forall_mem_nil _⟩
  | cons a rest ih =>
    rw [List.mapM_cons] at h
    rcases run_bind_eq_ok.1 h with ⟨b, s₁, hhead, h₁⟩
    rcases run_bind_eq_ok.1 h₁ with ⟨bs, s₂, htail, h₂⟩
    cases h₂
    rcases ih htail with ⟨hlength, hmembers⟩
    refine ⟨congrArg (· + 1) hlength, List.forall_mem_cons.2 ⟨?_, fun b hb => ?_⟩⟩
    · exact ⟨a, List.mem_cons_self, s, s₁, hhead⟩
    · rcases hmembers b hb with ⟨a', ha', hrun⟩
      exact ⟨a', List.mem_cons_of_mem _ ha', hrun⟩

/-- In the result of the pass every name is looked up at its own level. -/
theorem ownLevels_of_run (hj : Judged p c t j log)
    (hrun : (t.explicitAt types c.level).run u = .ok (t', u')) : OwnLevels types c.level t' := by
  induction t using induct_children generalizing c j log t' u u' with
  | step t ih =>
    by_cases htag : t.tag = .lookup
    · cases t <;> cases htag
      cases explicit_of_run hrun with
      | lookup hget hlookup => exact ownLevels_explicitLookup hget hlookup
    · rw [explicitAt_of_not_lookup htag] at hrun
      rcases run_bind_eq_ok.1 hrun with ⟨children', u₁, hchildren, hpure⟩
      cases hpure
      rcases mapM_run_eq_ok hchildren with ⟨hlength, hmembers⟩
      have htag' : (t.withChildren children').tag ≠ .lookup := by
        rw [tag_withChildren]
        exact htag
      rw [ownLevels_iff htag', children_withChildren hlength, levelBelow_withChildren]
      intro child' hchild'
      rcases hmembers child' hchild' with ⟨child, hchild, v, v', hv⟩
      rcases hj.child hchild with ⟨c', j', below, hj', -, hlevel, hlevel'⟩
      rw [← hlevel] at hv
      rw [← hlevel']
      exact ih child hchild hj' hv

/-- The pass leaves a term alone in which every name is looked up at its own level. -/
theorem explicitAt_of_ownLevels (hj : Judged p c t j log) (h : OwnLevels types c.level t) (u : Supply) :
    (t.explicitAt types c.level).run u = .ok (t, u) := by
  induction t using induct_children generalizing c j log u with
  | step t ih =>
    by_cases htag : t.tag = .lookup
    · cases t <;> cases htag
      next s name =>
      rcases ownLevels_lookup_iff.1 h with ⟨j', hj', hlevel⟩
      simp only [explicitAt, fold, hj', explicitLookup]
      split
      · rfl
      · next b hb =>
        -- no stage is crossed, so that no escape is put around the name
        have hsame : b.level = c.level := Int.ofNat_inj.1 (hlevel b hb)
        rw [hsame, if_neg (Nat.lt_irrefl _), Nat.sub_self]
        rfl
    · -- the parts are left alone one after the other, and none takes an identity
      have hchildren : ∀ ts : List Term, ts ⊆ t.children →
          (ts.mapM fun child : Term => child.explicitAt types (t.innerLevel c.level)).run u = .ok (ts, u) := by
        intro ts hts
        induction ts with
        | nil => rfl
        | cons child rest ihrest =>
          rcases List.cons_subset.1 hts with ⟨hchild, hrest⟩
          rcases hj.child hchild with ⟨c', j', below, hj', -, hlevel, hlevel'⟩
          have hown := (ownLevels_iff htag).1 h child hchild
          rw [← hlevel'] at hown
          have hhead := ih child hchild hj' hown u
          rw [hlevel] at hhead
          rw [List.mapM_cons]
          exact run_bind_eq_ok.2 ⟨_, _, hhead, run_bind_eq_ok.2 ⟨_, _, ihrest hrest, rfl⟩⟩
      rw [explicitAt_of_not_lookup htag]
      refine run_bind_eq_ok.2 ⟨_, _, hchildren t.children (List.Subset.refl _), ?_⟩
      rw [withChildren_children]
      rfl

/-! ## Whole programs -/

/-- The scopes of the new term bind the names at the levels that the old ones do. -/
theorem OwnLevels.level_of_keeps {log' : Log} {bound : Nat} {level : Int} (hkeeps : Keeps bound log log')
    (hold : ∀ e ∈ log, types.get? e.1 = some e.2)
    (hbound : ∀ id j, types.get? id = some j → id.toNat < bound) (h : OwnLevels types level t')
    {entry : Int × Term} (hentry : entry ∈ t'.nodesAt level) {s : Site} {name : String}
    (hname : entry.2 = .lookup s name) {j' : Judgement} (hj' : (s.id, j') ∈ log') {b : Binding}
    (hb : j'.scope.lookup? name = some b) : (b.level : Int) = entry.1 := by
  rcases h entry hentry s name hname with ⟨j₀, hj₀, hlevel⟩
  rcases hkeeps.scopes _ hj' with hnew | ⟨j₁, hmem, amount, hscope⟩
  · exact absurd hnew (Nat.not_le_of_lt (hbound s.id j₀ hj₀))
  · have hsame : j₀ = j₁ := Option.some.inj (hj₀.symm.trans (hold _ hmem))
    subst hsame
    dsimp only at hscope
    rw [hscope, Scope.lookup?_shift] at hb
    rcases Option.map_eq_some_iff.1 hb with ⟨b₀, hb₀, rfl⟩
    exact hlevel b₀ hb₀

/-- The result of the pass has the judgement of the program, and its names are looked up at their own
level. -/
theorem Judged.makeExplicit {supply : Supply} {q : Program} (hj : Judged p {} t j log) (hids : t.ids.Nodup)
    (hsupply : ∀ id ∈ t.ids, id < supply.next)
    (hq : Program.makeExplicit ⟨t, supply⟩ (Table.ofList log) = .ok q) :
    ∃ log', Judged p {} q.root j log' ∧
      ∀ entry ∈ q.root.nodesAt 0, ∀ s name, entry.2 = .lookup s name → ∀ j', (s.id, j') ∈ log' →
        ∀ b, j'.scope.lookup? name = some b → (b.level : Int) = entry.1 := by
  have htable := get?_ofList_log hj hids
  have hkeys : ∀ id j, (Table.ofList log).get? id = some j → id.toNat < supply.next.toNat := by
    intro id j hget
    have hmem := List.mem_map_of_mem (f := (·.1)) (Table.mem_of_get?_ofList hget)
    exact UInt32.lt_iff_toNat_lt.1 (hsupply id (hj.perm_ids.mem_iff.1 hmem))
  have hrun := run_of_makeExplicit hq
  rcases hj.explicit (explicit_of_run hrun) htable with ⟨log', hj', hkeeps⟩
  have hown : OwnLevels (Table.ofList log) 0 q.root := ownLevels_of_run hj hrun
  refine ⟨log', hj', fun entry hentry s name hname j' hmem b hb => ?_⟩
  exact hown.level_of_keeps hkeeps htable hkeys hentry hname hmem hb

/-- A program that has been made explicit is judged, with every name at its own level. -/
theorem judged_of_makeExplicit {supply : Supply} {e : Elaboration} {q : Program} (hids : t.ids.Nodup)
    (hsupply : ∀ id ∈ t.ids, id < supply.next) (he : p.elaborate t = .ok e)
    (hq : Program.makeExplicit ⟨t, supply⟩ e.table = .ok q) :
    ∃ j log, Judged p {} q.root j log ∧ OwnLevels (Table.ofList log) 0 q.root := by
  rcases elaborate_eq_ok_iff.1 he with ⟨j, log, hj, rfl⟩
  rcases hj.makeExplicit hids hsupply hq with ⟨log', hj', hlevels⟩
  refine ⟨j, log', hj', fun entry hentry s name hname => ?_⟩
  -- the node has an entry in the new log
  have hid : s.id ∈ log'.map (·.1) := by
    rw [hj'.perm_ids.mem_iff]
    have hnode := List.mem_map_of_mem (f := Term.id) (mem_nodes_of_nodesAt hentry)
    rw [hname] at hnode
    exact hnode
  rcases List.mem_map.1 hid with ⟨entry', hentry', heq⟩
  rcases Table.get?_ofList_of_mem hentry' with ⟨j', hj''⟩
  rw [heq] at hj''
  exact ⟨j', hj'', hlevels entry hentry s name hname j' (Table.mem_of_get?_ofList hj'')⟩

/-- **Making references across stages explicit leaves none implicit.** If a program with different node
identities elaborates and the pass succeeds with a supply above them, then the result elaborates, every
name that is looked up in it is bound at the level of the lookup, and the pass does not change it any
more, nor the supply. -/
theorem makeExplicit_idempotent (p : Prelude) (t : Term) (supply : Supply) (e : Elaboration)
    (q : Program) (hids : t.ids.Nodup) (hsupply : ∀ id ∈ t.ids, id < supply.next)
    (he : p.elaborate t = .ok e) (hq : Program.makeExplicit ⟨t, supply⟩ e.table = .ok q) :
    ∃ e', p.elaborate q.root = .ok e' ∧ OwnLevels e'.table 0 q.root ∧
      Program.makeExplicit q e'.table = .ok q := by
  rcases judged_of_makeExplicit hids hsupply he hq with ⟨j, log, hj, hown⟩
  refine ⟨⟨q.root, Table.ofList log⟩, elaborate_eq_ok_iff.2 ⟨j, log, hj, rfl⟩, hown, ?_⟩
  have hagain := explicitAt_of_ownLevels hj hown q.supply
  rw [Program.makeExplicit, hagain]
  rfl

/-- Four escapes make the references of the term explicit, and no further one is needed. -/
theorem makeExplicit_idempotent_crossing : ∃ e q e',
    Prelude.general.elaborate crossingTerm = .ok e ∧
      Program.makeExplicit ⟨crossingTerm, ⟨11⟩⟩ e.table = .ok q ∧ q.supply = ⟨15⟩ ∧
      Prelude.general.elaborate q.root = .ok e' ∧ OwnLevels e'.table 0 q.root ∧
      Program.makeExplicit q e'.table = .ok q := by
  obtain ⟨e, q, he, hq, hsupply⟩ : ∃ e q, Prelude.general.elaborate crossingTerm = .ok e ∧
      Program.makeExplicit ⟨crossingTerm, ⟨11⟩⟩ e.table = .ok q ∧ q.supply = ⟨15⟩ := ⟨_, _, rfl, rfl, rfl⟩
  obtain ⟨e', h⟩ := makeExplicit_idempotent Prelude.general crossingTerm ⟨11⟩ e q
    (by decide) (ids_lt_of_all rfl) he hq
  exact ⟨e, q, e', he, hq, hsupply, h⟩

end Multistage
