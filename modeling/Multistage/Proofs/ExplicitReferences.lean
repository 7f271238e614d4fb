import Mathlib.Data.List.Perm.Subperm
import Multistage.CrossStage
import Multistage.Proofs.Judgements
import Multistage.Proofs.Scopes
import Multistage.Proofs.Supplies

/-!
# Explicit references keep their types

`Explicit types level t u t' u'` says by rules what `Term.explicitAt` does where it succeeds: the term
`t` under `level` quotes becomes `t'`, and the supply goes from `u` to `u'`.

A use of a name that is wrapped in persist escapes is judged again under fewer quotes, in a scope whose
types have moved back. The invariant of the simulation is that the two terms have the same judgement in
the same context, so that nothing around the use can tell the difference.
-/

namespace Multistage

open Term

/-! ## The pass by rules -/

mutual
/-- What making references explicit does to a term. -/
inductive Explicit (types : TypeTable) : Nat → Term → Supply → Term → Supply → Prop where
  | literal {level : Nat} {s : Site} {value : Literal} {u : Supply} :
    Explicit types level (.literal s value) u (.literal s value) u
  | seq {level : Nat} {s : Site} {l r l' r' : Term} {u u₁ u₂ : Supply} :
    Explicit types level l u l' u₁ → Explicit types level r u₁ r' u₂ →
    Explicit types level (.seq s l r) u (.seq s l' r') u₂
  | define {level : Nat} {s : Site} {name : String} {t t' : Term} {u u' : Supply} :
    Explicit types level t u t' u' →
    Explicit types level (.define s name t) u (.define s name t') u'
  | assign {level : Nat} {s : Site} {name : String} {t t' : Term} {u u' : Supply} :
    Explicit types level t u t' u' →
    Explicit types level (.assign s name t) u (.assign s name t') u'
  | lookup {level : Nat} {s : Site} {name : String} {t' : Term} {u u' : Supply} {j : Judgement} :
    types.get? s.id = some j → (explicitLookup s name j.scope level).run u = .ok (t', u') →
    Explicit types level (.lookup s name) u t' u'
  | unary {level : Nat} {s : Site} {op : UnaryOp} {t t' : Term} {u u' : Supply} :
    Explicit types level t u t' u' → Explicit types level (.unary s op t) u (.unary s op t') u'
  | binary {level : Nat} {s : Site} {op : BinaryOp} {l r l' r' : Term} {u u₁ u₂ : Supply} :
    Explicit types level l u l' u₁ → Explicit types level r u₁ r' u₂ →
    Explicit types level (.binary s op l r) u (.binary s op l' r') u₂
  | quote {level : Nat} {s : Site} {label : Option String} {snippet : Bool} {t t' : Term}
      {u u' : Supply} :
    Explicit types (level + 1) t u t' u' →
    Explicit types level (.quote s label snippet t) u (.quote s label snippet t') u'
  | escape {level : Nat} {s : Site} {kind : EscapeKind} {t t' : Term} {u u' : Supply} :
    Explicit types (level - 1) t u t' u' →
    Explicit types level (.escape s kind t) u (.escape s kind t') u'
  | run {level : Nat} {s : Site} {t t' : Term} {u u' : Supply} :
    Explicit types level t u t' u' → Explicit types level (.run s t) u (.run s t') u'
  | lambda {level : Nat} {s : Site} {params : List Param} {t t' : Term} {u u' : Supply} :
    Explicit types level t u t' u' →
    Explicit types level (.lambda s params t) u (.lambda s params t') u'
  | call {level : Nat} {s : Site} {f f' : Term} {args args' : List Term} {u u₁ u₂ : Supply} :
    Explicit types level f u f' u₁ → ExplicitAll types level args u₁ args' u₂ →
    Explicit types level (.call s f args) u (.call s f' args') u₂
  | host {level : Nat} {s : Site} {name : String} {type : TypeExpr} {u : Supply} :
    Explicit types level (.host s name type) u (.host s name type) u
  | held {level : Nat} {s : Site} {index : Nat} {u : Supply} :
    Explicit types level (.held s index) u (.held s index) u

/-- What making references explicit does to several terms, from left to right. -/
inductive ExplicitAll (types : TypeTable) :
    Nat → List Term → Supply → List Term → Supply → Prop where
  | nil {level : Nat} {u : Supply} : ExplicitAll types level [] u [] u
  | cons {level : Nat} {t t' : Term} {ts ts' : List Term} {u u₁ u₂ : Supply} :
    Explicit types level t u t' u₁ → ExplicitAll types level ts u₁ ts' u₂ →
    ExplicitAll types level (t :: ts) u (t' :: ts') u₂
end

variable {types : TypeTable} {level : Nat} {t t' : Term} {u u' : Supply}

/-- How many quotes are around the children of a node. -/
def Term.innerLevel (level : Nat) : Term → Nat
  | .quote .. => level + 1
  | .escape .. => level - 1
  | _ => level

/-- Every node but a lookup is rebuilt from its children. -/
theorem explicitAt_of_not_lookup (ht : t.tag ≠ .lookup) :
    t.explicitAt types level = do
      let children ← t.children.mapM fun child => child.explicitAt types (t.innerLevel level)
      return t.withChildren children := by
  rw [explicitAt, fold_eq]
  cases t with
  | lookup => exact absurd rfl ht
  | _ =>
    simp only [List.mapM_map]
    rfl

/-- A run over a list of terms makes each of them explicit, the supply going from one to the next. -/
theorem explicitAll_of_run {ts ts' : List Term}
    (h : (ts.mapM fun t : Term => t.explicitAt types level).run u = .ok (ts', u'))
    (ih : ∀ t ∈ ts, ∀ {level t' u u'}, (t.explicitAt types level).run u = .ok (t', u') →
      Explicit types level t u t' u') :
    ExplicitAll types level ts u ts' u' := by
  induction ts generalizing ts' u with
  | nil =>
    cases h
    exact .nil
  | cons t rest ihrest =>
    rw [List.mapM_cons] at h
    rcases run_bind_eq_ok.1 h with ⟨t', u₁, hhead, h₁⟩
    rcases run_bind_eq_ok.1 h₁ with ⟨rest', u₂, htail, h₂⟩
    cases h₂
    exact .cons (ih t (by simp) hhead) (ihrest htail fun t ht => ih t (by simp [ht]))

/-- A node that is no lookup is rebuilt over its parts. -/
theorem explicitAll_children_of_run (ht : t.tag ≠ .lookup)
    (h : (t.explicitAt types level).run u = .ok (t', u'))
    (ih : ∀ child ∈ t.children, ∀ {level t' u u'},
      (child.explicitAt types level).run u = .ok (t', u') → Explicit types level child u t' u') :
    ∃ children, ExplicitAll types (t.innerLevel level) t.children u children u' ∧
      t' = t.withChildren children := by
  rw [explicitAt_of_not_lookup ht] at h
  rcases run_bind_eq_ok.1 h with ⟨children, u₁, hall, h₁⟩
  cases h₁
  exact ⟨children, explicitAll_of_run hall ih, rfl⟩

/-- Where the pass succeeds it follows the rules. -/
theorem explicit_of_run (h : (t.explicitAt types level).run u = .ok (t', u')) :
    Explicit types level t u t' u' := by
  induction t generalizing level t' u u' with
  | literal =>
    cases h
    exact .literal
  | lookup s name =>
    simp only [explicitAt, fold] at h
    split at h
    · next j hj => exact .lookup hj h
    · cases h
  | host =>
    cases h
    exact .host
  | held =>
    cases h
    exact .held
  | seq s l r ihl ihr | binary s op l r ihl ihr =>
    -- all other nodes are rebuilt from their children, one after the other
    obtain ⟨children, hall, rfl⟩ := explicitAll_children_of_run (by simp [tag]) h (by simp_all [children])
    cases hall with
    | cons hl hrest =>
      cases hrest with
      | cons hr hnil =>
        cases hnil
        constructor
        · exact hl
        · exact hr
  | define s name t ih | assign s name t ih | unary s op t ih | quote s label snippet t ih
  | escape s kind t ih | run s t ih | lambda s params t ih =>
    obtain ⟨children, hall, rfl⟩ := explicitAll_children_of_run (by simp [tag]) h (by simp_all [children])
    cases hall with
    | cons ht hnil =>
      cases hnil
      constructor
      exact ht
  | call s f args ihf iha =>
    obtain ⟨children, hall, rfl⟩ := explicitAll_children_of_run (by simp [tag]) h (by simp_all [children])
    cases hall with
    | cons hf ha => exact .call hf ha

/-! ## The supply -/

/-- A fresh identity is the next of the supply, which is one further then. -/
theorem Staging.fresh_run_eq_ok {id : NodeId} (h : Staging.fresh.run u = .ok (id, u')) :
    id = u.next ∧ u'.next.toNat = u.next.toNat + 1 := by
  simp only [Staging.fresh, StateT.run] at h
  split at h
  · next result hresult =>
    cases h
    exact fresh?_eq_some hresult
  · cases h

/-- Each escape takes one identity. -/
theorem persistTimes_next {count : Nat} (h : (t.persistTimes count).run u = .ok (t', u')) :
    u'.next.toNat = u.next.toNat + count := by
  induction count generalizing t' u' with
  | zero =>
    cases h
    rfl
  | succ count ih =>
    rw [persistTimes] at h
    rcases run_bind_eq_ok.1 h with ⟨inner, u₁, hinner, h₁⟩
    rcases run_bind_eq_ok.1 h₁ with ⟨id, u₂, hfresh, h₂⟩
    cases h₂
    have hnext := (Staging.fresh_run_eq_ok hfresh).2
    have hcount := ih hinner
    omega

/-- A use of a name stays as it is if the name is not bound, and is wrapped in one escape for each level
between it and its binding otherwise. -/
theorem explicitLookup_cases {site : Site} {name : String} {scope : Scope Binding}
    (h : (explicitLookup site name scope level).run u = .ok (t', u')) :
    (scope.lookup? name = none ∧ t' = .lookup site name ∧ u' = u) ∨
      ∃ binding, scope.lookup? name = some binding ∧ binding.level ≤ level ∧
        ((Term.lookup site name).persistTimes (level - binding.level)).run u = .ok (t', u') := by
  rw [explicitLookup] at h
  split at h
  · next hnone =>
    cases h
    exact .inl ⟨hnone, rfl, rfl⟩
  · next binding hsome =>
    split at h
    · cases h
    · next hle => exact .inr ⟨binding, hsome, Nat.le_of_not_gt hle, h⟩

theorem explicitLookup_next_le {site : Site} {name : String} {scope : Scope Binding}
    (h : (explicitLookup site name scope level).run u = .ok (t', u')) :
    u.next.toNat ≤ u'.next.toNat := by
  rcases explicitLookup_cases h with ⟨-, -, rfl⟩ | ⟨binding, -, -, hpersist⟩
  · exact Nat.le_refl _
  · have hnext := persistTimes_next hpersist
    omega

/-- The supply only goes up. -/
theorem ExplicitAll.next_le {ts ts' : List Term} (h : ExplicitAll types level ts u ts' u')
    (ih : ∀ t ∈ ts, ∀ {level t' u u'}, Explicit types level t u t' u' →
      u.next.toNat ≤ u'.next.toNat) :
    u.next.toNat ≤ u'.next.toNat := by
  induction ts generalizing ts' u with
  | nil =>
    cases h
    exact Nat.le_refl _
  | cons t rest ihrest =>
    cases h with
    | cons ht hrest =>
      have hhead := ih t (by simp) ht
      have htail := ihrest hrest fun t ht => ih t (by simp [ht])
      omega

/-- Identities are only ever taken from the supply. -/
theorem Explicit.next_le (h : Explicit types level t u t' u') : u.next.toNat ≤ u'.next.toNat := by
  induction t generalizing level t' u u' with
  | literal | host | held =>
    cases h
    exact Nat.le_refl _
  | lookup s name =>
    cases h with
    | lookup _ hrun => exact explicitLookup_next_le hrun
  | seq s l r ihl ihr | binary s op l r ihl ihr =>
    cases h
    next hl hr =>
      have hleft := ihl hl
      have hright := ihr hr
      omega
  | define s name t ih | assign s name t ih | unary s op t ih | quote s label snippet t ih
  | escape s kind t ih | run s t ih | lambda s params t ih =>
    cases h
    next ht => exact ih ht
  | call s f args ihf iha =>
    cases h with
    | call hf ha =>
      have hcallee := ihf hf
      have hargs := ha.next_le iha
      omega

/-- How often an identity has been taken from a supply that went from `u` to `u'`. -/
def Supply.taken (u u' : Supply) (n : Nat) : Nat :=
  if u.next.toNat ≤ n ∧ n < u'.next.toNat then 1 else 0

theorem Supply.taken_self (u : Supply) (n : Nat) : u.taken u n = 0 := by
  unfold taken
  split <;> omega

theorem Supply.taken_add {u u₁ u₂ : Supply} (h : u.next.toNat ≤ u₁.next.toNat)
    (h' : u₁.next.toNat ≤ u₂.next.toNat) (n : Nat) : u.taken u₁ n + u₁.taken u₂ n = u.taken u₂ n := by
  unfold taken
  split <;> split <;> split <;> omega

/-- Escapes around a term have the identities that the supply has given out. -/
theorem count_allIds_persistTimes {count : Nat} (h : (t.persistTimes count).run u = .ok (t', u')) (n : Nat) :
    (t'.allIds.map UInt32.toNat).count n = (t.allIds.map UInt32.toNat).count n + u.taken u' n := by
  induction count generalizing t' u' with
  | zero =>
    cases h
    rw [Supply.taken_self]
    rfl
  | succ count ih =>
    rw [persistTimes] at h
    rcases run_bind_eq_ok.1 h with ⟨inner, u₁, hinner, h₁⟩
    rcases run_bind_eq_ok.1 h₁ with ⟨id, u₂, hfresh, h₂⟩
    cases h₂
    rcases Staging.fresh_run_eq_ok hfresh with ⟨rfl, hnext⟩
    have hle : u.next.toNat ≤ u₁.next.toNat := by
      have := persistTimes_next hinner
      omega
    have hlast : (if (u₁.next.toNat == n) = true then 1 else 0) = u₁.taken u' n := by
      simp only [Supply.taken, beq_iff_eq]
      split <;> split <;> omega
    rw [allIds_of_one (u := inner) rfl]
    show ((u₁.next :: inner.allIds).map UInt32.toNat).count n = _
    rw [List.map_cons, List.count_cons, ih hinner, hlast, Nat.add_assoc,
      Supply.taken_add hle (by omega)]

/-- So have the escapes in a list of terms. -/
theorem count_allIds_mapM {ts ts' : List Term}
    (h : (ts.mapM fun t : Term => t.explicitAt types level).run u = .ok (ts', u')) (n : Nat)
    (ih : ∀ t ∈ ts, ∀ {level t' u u'}, (t.explicitAt types level).run u = .ok (t', u') →
      (t'.allIds.map UInt32.toNat).count n = (t.allIds.map UInt32.toNat).count n + u.taken u' n) :
    ts'.length = ts.length ∧ u.next.toNat ≤ u'.next.toNat ∧
      ((ts'.flatMap allIds).map UInt32.toNat).count n =
        ((ts.flatMap allIds).map UInt32.toNat).count n + u.taken u' n := by
  induction ts generalizing ts' u with
  | nil =>
    cases h
    refine ⟨rfl, Nat.le_refl _, ?_⟩
    rw [Supply.taken_self]
    rfl
  | cons t rest ihrest =>
    rw [List.mapM_cons] at h
    rcases run_bind_eq_ok.1 h with ⟨t', u₁, hhead, h₁⟩
    rcases run_bind_eq_ok.1 h₁ with ⟨rest', u₂, htail, h₂⟩
    cases h₂
    obtain ⟨hlength, hle, hcount⟩ := ihrest htail fun t ht => ih t (List.mem_cons_of_mem _ ht)
    have hfirst := ih t List.mem_cons_self hhead
    have hnext := (explicit_of_run hhead).next_le
    refine ⟨congrArg (· + 1) hlength, Nat.le_trans hnext hle, ?_⟩
    rw [List.flatMap_cons, List.flatMap_cons, List.map_append, List.map_append, List.count_append,
      List.count_append, hcount, hfirst, ← Supply.taken_add hnext hle]
    omega

/-- The new term has the identities of the old one, and each that was taken from the supply once. -/
theorem count_allIds_of_run (h : (t.explicitAt types level).run u = .ok (t', u')) (n : Nat) :
    (t'.allIds.map UInt32.toNat).count n = (t.allIds.map UInt32.toNat).count n + u.taken u' n := by
  induction t using induct_children generalizing level t' u u' with
  | step t ih =>
    by_cases htag : t.tag = .lookup
    · cases t <;> cases htag
      cases explicit_of_run h with
      | lookup hget hlookup =>
        rcases explicitLookup_cases hlookup with ⟨-, rfl, rfl⟩ | ⟨binding, -, -, hpersist⟩
        · rw [Supply.taken_self]
          rfl
        · exact count_allIds_persistTimes hpersist n
    · rw [explicitAt_of_not_lookup htag] at h
      rcases run_bind_eq_ok.1 h with ⟨children', u₁, hchildren, hpure⟩
      cases hpure
      rcases count_allIds_mapM hchildren n ih with ⟨hlength, -, hcount⟩
      rw [allIds_eq t, allIds_eq (t.withChildren children'), children_withChildren hlength, id_withChildren,
        params_withChildren]
      simp only [List.map_cons, List.map_append, List.count_cons, List.count_append, hcount]
      omega

/-- With a supply above all identities of a term, the new one has different identities if the old one
has. -/
theorem nodup_allIds_of_run (h : (t.explicitAt types level).run u = .ok (t', u')) (hids : t.allIds.Nodup)
    (hbound : ∀ id ∈ t.allIds, id < u.next) : t'.allIds.Nodup := by
  have hold : (t.allIds.map UInt32.toNat).Nodup := hids.map fun _ _ heq => UInt32.toNat_inj.1 heq
  refine List.Nodup.of_map UInt32.toNat (List.nodup_iff_count_le_one.2 fun n => ?_)
  rw [count_allIds_of_run h n, Supply.taken]
  split
  · next hnew =>
    have hnotin : n ∉ t.allIds.map UInt32.toNat := by
      intro hmem
      rcases List.mem_map.1 hmem with ⟨id, hid, rfl⟩
      exact absurd hnew.1 (Nat.not_le_of_lt (UInt32.lt_iff_toNat_lt.1 (hbound id hid)))
    exact Nat.le_of_eq (congrArg (· + 1) (List.count_eq_zero_of_not_mem hnotin))
  · exact List.nodup_iff_count_le_one.1 hold n

/-! ## Wrapped uses of names -/

variable {p : Prelude} {c : Context} {j : Judgement} {log : Log}

/-- Under no fewer quotes than its binding, a name has the type it was bound with. -/
theorem lookupRule_eq_shift {name : String} {binding : Binding} (node : NodeId)
    (hbound : c.scope.lookup? name = some binding) (hle : binding.level ≤ c.level) :
    p.lookupRule c node name = .ok (binding.type.shift ((c.level - binding.level : Nat) : Int)) := by
  rw [Prelude.lookupRule_bound hbound, Int.ofNat_sub hle]
  by_cases hlt : binding.level < c.level
  · rw [if_pos hlt]
  · have heq : (c.level : Int) - binding.level = 0 := by omega
    rw [if_neg hlt, heq, Ty.shift_zero]

/-- Inside as many escapes as it takes to get back to the level of its binding, a name has the type that
it has outside them. -/
theorem lookupRule_escapedTimes {name : String} {binding : Binding} (node : NodeId)
    (hbound : c.scope.lookup? name = some binding) (hle : binding.level ≤ c.level) :
    p.lookupRule (c.escapedTimes (c.level - binding.level)) node name =
      .ok (binding.type.shift ((c.level - binding.level : Nat) : Int)) := by
  have hlevel : (c.escapedTimes (c.level - binding.level)).level = binding.level := by
    rw [Context.escapedTimes_level]
    omega
  have hbound' : (c.escapedTimes (c.level - binding.level)).scope.lookup? name =
      some (binding.shift ((c.level - binding.level : Nat) : Int)) := by
    rw [Context.escapedTimes_scope, Scope.lookup?_shift, hbound]
    rfl
  rw [Prelude.lookupRule_bound hbound']
  simp [Binding.shift, hlevel]

/-- A term that leaves the scope alone keeps its type inside persist escapes. -/
theorem judged_persistTimes {count : Nat} {type : Ty} {a : Log}
    (hrun : (t.persistTimes count).run u = .ok (t', u')) (hlevel : count ≤ c.level)
    (h : Judged p (c.escapedTimes count) t ⟨type, (c.escapedTimes count).scope⟩ a) :
    ∃ b, Judged p c t' ⟨type, c.scope⟩ (a ++ b) ∧ ∀ e ∈ b, u.next.toNat ≤ e.1.toNat := by
  induction count generalizing c t' u' with
  | zero =>
    cases hrun
    refine ⟨[], ?_, by simp⟩
    rw [List.append_nil]
    exact h
  | succ count ih =>
    rw [persistTimes] at hrun
    rcases run_bind_eq_ok.1 hrun with ⟨inner, u₁, hinner, h₁⟩
    rcases run_bind_eq_ok.1 h₁ with ⟨id, u₂, hfresh, h₂⟩
    cases h₂
    have hle : count ≤ c.escaped.level := by
      show count ≤ c.level - 1
      omega
    -- the escapes inside are judged one quote further out
    rcases ih hinner hle h with ⟨b, hb, hids⟩
    rcases Staging.fresh_run_eq_ok hfresh with ⟨rfl, -⟩
    have hne : c.level ≠ 0 := by omega
    have hnext := persistTimes_next hinner
    -- one more escape, with the identity after theirs
    refine ⟨b ++ [(u₁.next, ⟨type, c.scope⟩)], ?_, ?_⟩
    · rw [← List.append_assoc]
      exact .escape hne hb rfl
    · intro e he
      rcases List.mem_append.1 he with he | he
      · exact hids e he
      · rw [List.mem_singleton.1 he]
        show u.next.toNat ≤ u₁.next.toNat
        omega

/-! ## The simulation -/

/-- Every judgement of `log'` is new, which means that its key is at least `bound`, or it is related to a
judgement of `log` with the same key. -/
def Retains (related : Judgement → Judgement → Prop) (bound : Nat) (log log' : Log) : Prop :=
  ∀ e ∈ log', bound ≤ e.1.toNat ∨ ∃ j, (e.1, j) ∈ log ∧ related j e.2

/-- Two logs in a row, where the second takes no identities from before the first. -/
theorem Retains.append {related : Judgement → Judgement → Prop} {m n : Nat} {a a' b b' : Log}
    (ha : Retains related m a a') (hb : Retains related n b b') (hle : m ≤ n) :
    Retains related m (a ++ b) (a' ++ b') := by
  intro e he
  rcases List.mem_append.1 he with he | he
  · rcases ha e he with hnew | ⟨j, hj, hsame⟩
    · exact .inl hnew
    · exact .inr ⟨j, List.mem_append_left _ hj, hsame⟩
  · rcases hb e he with hnew | ⟨j, hj, hsame⟩
    · exact .inl (Nat.le_trans hle hnew)
    · exact .inr ⟨j, List.mem_append_right _ hj, hsame⟩

theorem Retains.appendNew {related : Judgement → Judgement → Prop} {bound : Nat} {id : NodeId}
    {j j' : Judgement} {new : Log} (hsame : related j j') (hnew : ∀ e ∈ new, bound ≤ e.1.toNat) :
    Retains related bound [(id, j)] ([(id, j')] ++ new) := by
  intro e he
  rcases List.mem_append.1 he with he | he
  · rw [List.mem_singleton.1 he]
    exact .inr ⟨j, List.mem_singleton.2 rfl, hsame⟩
  · exact .inl (hnew e he)

/-- A log has every key of another one, with the same type and with a scope that is the same up to the
stages of its types; keys from `bound` on are new. -/
structure Keeps (bound : Nat) (log log' : Log) : Prop where
  keys : ∀ e ∈ log, ∃ j, (e.1, j) ∈ log'
  types : Retains (fun j j' => j.type = j'.type) bound log log'
  scopes : Retains (fun j j' => ∃ amount, j'.scope = j.scope.shift amount) bound log log'

namespace Keeps

variable {m n : Nat} {a a' b b' : Log}

theorem refl (n : Nat) (log : Log) : Keeps n log log :=
  ⟨fun e he => ⟨e.2, he⟩, fun e he => .inr ⟨e.2, he, rfl⟩, fun e he => .inr ⟨e.2, he, 0, by simp⟩⟩

theorem append (ha : Keeps m a a') (hb : Keeps n b b') (hle : m ≤ n) :
    Keeps m (a ++ b) (a' ++ b') := by
  refine ⟨?_, ha.types.append hb.types hle, ha.scopes.append hb.scopes hle⟩
  intro e he
  rcases List.mem_append.1 he with he | he
  · rcases ha.keys e he with ⟨j, hj⟩
    exact ⟨j, List.mem_append_left _ hj⟩
  · rcases hb.keys e he with ⟨j, hj⟩
    exact ⟨j, List.mem_append_right _ hj⟩

theorem concat (ha : Keeps m a a') (id : NodeId) (j : Judgement) :
    Keeps m (a ++ [(id, j)]) (a' ++ [(id, j)]) :=
  ha.append (refl m _) (Nat.le_refl m)

end Keeps

/-- A use of a name is judged the same after it has been wrapped. -/
theorem judged_explicitLookup {s : Site} {name : String}
    (hrun : (explicitLookup s name c.scope c.level).run u = .ok (t', u'))
    (h : Judged p c (.lookup s name) j log) :
    ∃ log', Judged p c t' j log' ∧ Keeps u.next.toNat log log' := by
  rcases explicitLookup_cases hrun with ⟨-, rfl, -⟩ | ⟨binding, hbound, hle, hpersist⟩
  · exact ⟨log, h, .refl _ _⟩
  · cases h with
    | lookup hrule =>
      rw [lookupRule_eq_shift s.id hbound hle] at hrule
      cases hrule
      have hinner := Judged.lookup (lookupRule_escapedTimes (p := p) s.id hbound hle)
      rcases judged_persistTimes hpersist (Nat.sub_le _ _) hinner with ⟨b, hb, hnew⟩
      refine ⟨_, hb, ?_, .appendNew rfl hnew, .appendNew ⟨_, Context.escapedTimes_scope _ _⟩ hnew⟩
      intro e he
      rw [List.mem_singleton.1 he]
      exact ⟨_, List.mem_append_left _ (List.mem_singleton.2 rfl)⟩

/-- Arguments keep their types when references in them become explicit. -/
theorem JudgedAll.explicit {ts ts' : List Term} {tys : List Ty}
    (h : JudgedAll p c ts tys log) (hx : ExplicitAll types c.level ts u ts' u')
    (htypes : ∀ e ∈ log, types.get? e.1 = some e.2)
    (ih : ∀ t ∈ ts, ∀ {t' u u' c j log}, Judged p c t j log → Explicit types c.level t u t' u' →
      (∀ e ∈ log, types.get? e.1 = some e.2) → ∃ log', Judged p c t' j log' ∧ Keeps u.next.toNat log log') :
    ∃ log', JudgedAll p c ts' tys log' ∧ Keeps u.next.toNat log log' := by
  induction ts generalizing ts' tys log u with
  | nil =>
    cases hx
    cases h
    exact ⟨[], .nil, .refl _ _⟩
  | cons t rest ihrest =>
    cases hx with
    | cons hx hxs =>
      cases h with
      | cons h hs =>
        rcases List.forall_mem_append.1 htypes with ⟨ha, hb⟩
        have hnext := hx.next_le
        rcases ih t (by simp) h hx ha with ⟨a', hjudged, hkeeps⟩
        obtain ⟨b', hjudgeds, hkeepss⟩ := ihrest hs hxs hb fun t ht => ih t (by simp [ht])
        exact ⟨a' ++ b', .cons hjudged hjudgeds, hkeeps.append hkeepss hnext⟩

/-- Making references explicit keeps the judgement of a term, and the types of all its nodes. -/
theorem Judged.explicit (h : Judged p c t j log) (hx : Explicit types c.level t u t' u')
    (htypes : ∀ e ∈ log, types.get? e.1 = some e.2) :
    ∃ log', Judged p c t' j log' ∧ Keeps u.next.toNat log log' := by
  induction t generalizing c j log t' u u' with
  | literal | host =>
    cases hx
    exact ⟨log, h, .refl _ _⟩
  | lookup s name =>
    cases hx with
    | lookup hj hrun =>
      -- the scope that the pass reads off the table is that of the judgement
      have hmem : types.get? s.id = some j := htypes _ h.mem_log
      rw [hj] at hmem
      cases hmem
      cases h with
      | lookup hrule => exact judged_explicitLookup hrun (.lookup hrule)
  | seq s l r ihl ihr =>
    cases hx with
    | seq hxl hxr =>
      cases h with
      | seq hl hr =>
        rw [List.forall_mem_append, List.forall_mem_append] at htypes
        -- new identities in the second part are above those in the first
        have hnext := hxl.next_le
        rcases ihl hl hxl htypes.1.1 with ⟨a', hl', hkl⟩
        rcases ihr hr hxr htypes.1.2 with ⟨b', hr', hkr⟩
        exact ⟨_, .seq hl' hr', (hkl.append hkr hnext).concat _ _⟩
  | binary s op l r ihl ihr =>
    cases hx with
    | binary hxl hxr =>
      cases h with
      | binary hl hr hrule =>
        rw [List.forall_mem_append, List.forall_mem_append] at htypes
        have hnext := hxl.next_le
        rcases ihl hl hxl htypes.1.1 with ⟨a', hl', hkl⟩
        rcases ihr hr hxr htypes.1.2 with ⟨b', hr', hkr⟩
        exact ⟨_, .binary hl' hr' hrule, (hkl.append hkr hnext).concat _ _⟩
  | define s name t ih =>
    cases hx with
    | define hx =>
      cases h with
      | define hv =>
        rcases ih hv hx (List.forall_mem_append.1 htypes).1 with ⟨a', hv', hk⟩
        exact ⟨_, .define hv', hk.concat _ _⟩
  | assign s name t ih =>
    cases hx with
    | assign hx =>
      cases h with
      | assign hv hrule =>
        rcases ih hv hx (List.forall_mem_append.1 htypes).1 with ⟨a', hv', hk⟩
        exact ⟨_, .assign hv' hrule, hk.concat _ _⟩
  | unary s op t ih =>
    cases hx with
    | unary hx =>
      cases h with
      | unary hv hrule =>
        rcases ih hv hx (List.forall_mem_append.1 htypes).1 with ⟨a', hv', hk⟩
        exact ⟨_, .unary hv' hrule, hk.concat _ _⟩
  | quote s label snippet t ih =>
    cases hx with
    | quote hx =>
      cases h with
      | quote hb =>
        -- the pass counts the quote as the checker does
        rcases ih hb hx (List.forall_mem_append.1 htypes).1 with ⟨a', hb', hk⟩
        exact ⟨_, .quote hb', hk.concat _ _⟩
  | escape s kind t ih =>
    cases hx with
    | escape hx =>
      cases h with
      | escape hne hb hrule =>
        rcases ih hb hx (List.forall_mem_append.1 htypes).1 with ⟨a', hb', hk⟩
        exact ⟨_, .escape hne hb' hrule, hk.concat _ _⟩
  | run s t ih =>
    cases hx with
    | run hx =>
      cases h with
      | run hb hrule =>
        rcases ih hb hx (List.forall_mem_append.1 htypes).1 with ⟨a', hb', hk⟩
        exact ⟨_, .run hb' hrule, hk.concat _ _⟩
  | lambda s params t ih =>
    cases hx with
    | lambda hx =>
      cases h with
      | lambda hparams hb =>
        rcases ih hb hx (List.forall_mem_append.1 htypes).1 with ⟨a', hb', hk⟩
        exact ⟨_, .lambda hparams hb', hk.concat _ _⟩
  | call s f args ihf iha =>
    cases hx with
    | call hxf hxa =>
      cases h with
      | call hf ha hrule =>
        rw [List.forall_mem_append, List.forall_mem_append] at htypes
        have hnext := hxf.next_le
        rcases ihf hf hxf htypes.1.1 with ⟨a', hf', hkf⟩
        -- the arguments share the scope of the call
        rcases ha.explicit hxa htypes.1.2 iha with ⟨b', ha', hka⟩
        exact ⟨_, .call hf' ha' hrule, (hkf.append hka hnext).concat _ _⟩
  | held => cases h

/-! ## Whole programs -/

/-- The judgements of a term with different identities stand in its table. -/
theorem get?_ofList_log (h : Judged p c t j log) (hids : t.ids.Nodup) :
    ∀ e ∈ log, (Table.ofList log).get? e.1 = some e.2 := by
  intro e he
  have hnodup : (log.map (·.1)).Nodup := h.perm_ids.nodup_iff.2 hids
  exact Table.get?_ofList_of_nodup hnodup he

theorem rootType?_eq (h : Judged p c t j log) :
    (⟨t, Table.ofList log⟩ : Elaboration).rootType? = some j.type := by
  rcases h.log_eq with ⟨below, rfl⟩
  simp [Elaboration.rootType?, Table.get?_ofList_concat]

/-- A program that is made explicit comes from a run of the pass at level zero. -/
theorem run_of_makeExplicit {q : Program} (h : Program.makeExplicit ⟨t, u⟩ types = .ok q) :
    (t.explicitAt types 0).run u = .ok (q.root, q.supply) := by
  rw [Program.makeExplicit] at h
  rcases hrun : (t.explicitAt types 0).run u with obstacle | ⟨root, supply⟩
  · rw [hrun] at h
    cases h
  · rw [hrun] at h
    cases h
    rfl

theorem explicit_of_makeExplicit {q : Program}
    (h : Program.makeExplicit ⟨t, u⟩ types = .ok q) : Explicit types 0 t u q.root q.supply :=
  explicit_of_run (run_of_makeExplicit h)

/-- **Making references across stages explicit preserves types.** If a program with different node
identities elaborates and the pass succeeds with a supply above them, then the result elaborates too,
to the same type, and every node of the program has the same type in both tables. -/
theorem makeExplicit_preserves_types (p : Prelude) (t : Term) (supply : Supply) (e : Elaboration)
    (q : Program) (hids : t.ids.Nodup) (hsupply : ∀ id ∈ t.ids, id < supply.next)
    (he : p.elaborate t = .ok e) (hq : Program.makeExplicit ⟨t, supply⟩ e.table = .ok q) :
    ∃ e', p.elaborate q.root = .ok e' ∧
      (∃ type, e.rootType? = some type ∧ e'.rootType? = some type) ∧
      ∀ id ∈ t.ids, ∃ type, (e.table.get? id).map (·.type) = some type ∧
        (e'.table.get? id).map (·.type) = some type := by
  rcases elaborate_eq_ok_iff.1 he with ⟨j, log, hj, rfl⟩
  have htable := get?_ofList_log hj hids
  rcases hj.explicit (explicit_of_makeExplicit hq) htable with ⟨log', hj', hkeeps⟩
  refine ⟨⟨q.root, Table.ofList log'⟩, elaborate_eq_ok_iff.2 ⟨j, log', hj', rfl⟩,
    ⟨j.type, rootType?_eq hj, rootType?_eq hj'⟩, ?_⟩
  -- an old identity has an entry in the new log, and all its entries there have the old type
  intro id hid
  rcases List.mem_map.1 (hj.perm_ids.mem_iff.2 hid) with ⟨⟨id, ji⟩, hmem, rfl⟩
  rcases hkeeps.keys _ hmem with ⟨k, hk⟩
  rcases Table.get?_ofList_of_mem hk with ⟨k', hk'⟩
  refine ⟨ji.type, by simp [htable _ hmem], ?_⟩
  rcases hkeeps.types _ (Table.mem_of_get?_ofList hk') with hnew | ⟨ji', hmem', htype⟩
  · have hlt : id.toNat < supply.next.toNat := UInt32.lt_iff_toNat_lt.1 (hsupply _ hid)
    exact absurd hnew (Nat.not_le_of_lt hlt)
  · have heq := htable _ hmem'
    rw [htable _ hmem] at heq
    cases heq
    simp [hk', htype]

/-- `let x = 2; < let y = x; < x + y > >`: one use crosses two stages, and two cross one. -/
def crossingTerm : Term :=
  .seq ⟨0, {}⟩ (.define ⟨1, {}⟩ "x" (.literal ⟨2, {}⟩ (.int 2)))
    (.quote ⟨3, {}⟩ none false
      (.seq ⟨4, {}⟩ (.define ⟨5, {}⟩ "y" (.lookup ⟨6, {}⟩ "x"))
        (.quote ⟨7, {}⟩ none false
          (.binary ⟨8, {}⟩ .add (.lookup ⟨9, {}⟩ "x") (.lookup ⟨10, {}⟩ "y")))))

theorem makeExplicit_preserves_types_crossing : ∃ e q e',
    Prelude.general.elaborate crossingTerm = .ok e ∧
      Program.makeExplicit ⟨crossingTerm, ⟨11⟩⟩ e.table = .ok q ∧
      Prelude.general.elaborate q.root = .ok e' ∧
      (∃ type, e.rootType? = some type ∧ e'.rootType? = some type) ∧
      ∀ id ∈ crossingTerm.ids, ∃ type, (e.table.get? id).map (·.type) = some type ∧
        (e'.table.get? id).map (·.type) = some type := by
  obtain ⟨e, q, he, hq⟩ : ∃ e q, Prelude.general.elaborate crossingTerm = .ok e ∧
      Program.makeExplicit ⟨crossingTerm, ⟨11⟩⟩ e.table = .ok q := ⟨_, _, rfl, rfl⟩
  obtain ⟨e', h⟩ := makeExplicit_preserves_types Prelude.general crossingTerm ⟨11⟩ e q
    (by decide) (ids_lt_of_all rfl) he hq
  exact ⟨e, q, e', he, hq, h⟩

end Multistage
