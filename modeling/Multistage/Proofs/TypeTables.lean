import Multistage.Proofs.ExplicitReferences
import Multistage.Proofs.Pointwise

/-!
# Elaborating is checking with a table

The checker and the elaborator run the same walk, the one for the type alone and the other with a table on
the side. `Forgets x y` says that the table makes no difference: whatever it holds, `x` ends as `y` does.
It goes through rules and sequences, so it holds of the walk by induction over the term
(`judge_forgets`), for any way of keeping records.

Main statement: `elaborate_agrees_with_check`. Identities may be shared by several nodes.
-/

namespace Multistage

/-! ## Computations with a state that they do not depend on -/

section Forgets

variable {σ ε α β : Type}

/-- From any state, `x` has the result or the error of `y`. -/
def Forgets (x : StateT σ (Except ε) α) (y : Except ε α) : Prop :=
  ∀ s, (x.run s).map Prod.fst = y

theorem forgets_pure (a : α) : Forgets (pure a : StateT σ (Except ε) α) (.ok a) :=
  fun _ => rfl

/-- If two steps are so without their records, both together are. -/
theorem Forgets.bind {x : StateT σ (Except ε) α} {y : Except ε α} {g : α → StateT σ (Except ε) β}
    {h : α → Except ε β} (hx : Forgets x y) (hg : ∀ a, Forgets (g a) (h a)) :
    Forgets (x >>= g) (y >>= h) := by
  intro s
  have hfirst := hx s
  rw [StateT.run_bind]
  rcases hrun : x.run s with e | ⟨a, s₁⟩
  · rw [hrun] at hfirst
    rw [← hfirst]
    rfl
  · rw [hrun] at hfirst
    rw [← hfirst]
    exact hg a s₁

/-- A rule of the checker does not see the state. -/
theorem forgets_rule (x : Except ε α) : Forgets (liftM x : StateT σ (Except ε) α) x := by
  intro s
  cases x with
  | error e => rfl
  | ok a => rfl

/-- Computations that forget the state have the same errors. -/
theorem Forgets.error_iff {x : StateT σ (Except ε) α} {y : Except ε α} (h : Forgets x y) (s : σ) (e : ε) :
    x.run s = .error e ↔ y = .error e := by
  rw [← h s]
  rcases x.run s with e' | ⟨a, s'⟩ <;> simp [Except.map]

theorem Forgets.of_ok {x : StateT σ (Except ε) α} {y : Except ε α} (h : Forgets x y) {s s' : σ} {a : α}
    (hrun : x.run s = .ok (a, s')) : y = .ok a := by
  rw [← h s, hrun]
  rfl

/-- A check that succeeds does so with records too. -/
theorem Forgets.exists_run {x : StateT σ (Except ε) α} {y : Except ε α} (h : Forgets x y) {a : α}
    (hy : y = .ok a) (s : σ) : ∃ s', x.run s = .ok (a, s') := by
  have hrun := h s
  rw [hy] at hrun
  rcases hx : x.run s with e | ⟨a', s'⟩
  · rw [hx] at hrun
    cases hrun
  · rw [hx] at hrun
    cases hrun
    exact ⟨s', rfl⟩

end Forgets

/-! ## The walk of the checker -/

section Walk

variable {σ ε : Type} (f : Term → Context → Judgement → σ → σ)

/-- Recording a node leaves the judgement as it is. -/
theorem Forgets.recording {x : StateT σ (Except ε) Judgement} {y : Except ε Judgement} (h : Forgets x y)
    (t : Term) (c : Context) : Forgets (recording f t c x) y := by
  intro s
  have hx := h s
  rw [Multistage.recording, StateT.run_bind]
  rcases hrun : x.run s with e | ⟨j, s₁⟩
  · rw [hrun] at hx
    rw [← hx]
    rfl
  · rw [hrun] at hx
    rw [← hx]
    rfl

variable [MonadLiftT (Except Fault) (Except ε)] (count : Counting ε) (p : Prelude)

/-- Arguments have the same types with or without records. -/
theorem judgeAll_forgets {ts : List Term} (c : Context)
    (ih : ∀ t ∈ ts, ∀ c, Forgets (p.judge count (recording f) t c) (p.checkWith count c t)) :
    Forgets (p.judgeAll count (recording f) ts c : StateT σ (Except ε) (List Ty))
      (p.judgeAll count (fun _ _ j => j) ts c) := by
  induction ts with
  | nil => exact forgets_pure []
  | cons t rest ihrest =>
    have hhead := ih t List.mem_cons_self c
    have htail := ihrest fun u hu => ih u (List.mem_cons_of_mem _ hu)
    exact hhead.bind fun j => htail.bind fun types => forgets_pure _

/-- Records are kept on the side: with or without them, a term has the same judgement or the same fault. -/
theorem judge_forgets (t : Term) (c : Context) :
    Forgets (p.judge count (recording f) t c) (p.checkWith count c t) := by
  rw [Prelude.checkWith]
  -- each case runs its parts, applies a rule, which records nothing, and records the node last
  induction t generalizing c with
  | literal site value =>
    rw [Prelude.judge_literal, Prelude.judge_literal]
    exact (forgets_pure _).recording f _ c
  | seq site lhs rhs ihl ihr =>
    rw [Prelude.judge_seq, Prelude.judge_seq]
    exact ((ihl c).bind fun first => ihr _).recording f _ c
  | define site name value ih =>
    rw [Prelude.judge_define, Prelude.judge_define]
    exact ((ih c).bind fun j => forgets_pure _).recording f _ c
  | assign site name value ih =>
    rw [Prelude.judge_assign, Prelude.judge_assign]
    exact ((ih c).bind fun j => (forgets_rule _).bind fun _ => forgets_pure _).recording f _ c
  | lookup site name =>
    rw [Prelude.judge_lookup, Prelude.judge_lookup]
    exact ((forgets_rule _).bind fun type => forgets_pure _).recording f _ c
  | unary site op operand ih =>
    rw [Prelude.judge_unary, Prelude.judge_unary]
    exact ((ih c).bind fun j => (forgets_rule _).bind fun type => forgets_pure _).recording f _ c
  | binary site op lhs rhs ihl ihr =>
    rw [Prelude.judge_binary, Prelude.judge_binary]
    exact ((ihl c).bind fun first => (ihr _).bind fun second =>
      (forgets_rule _).bind fun type => forgets_pure _).recording f _ c
  | quote site label snippet body ih =>
    rw [Prelude.judge_quote, Prelude.judge_quote]
    exact ((forgets_rule _).bind fun inside => (ih inside).bind fun j =>
      (forgets_rule _).bind fun type => forgets_pure _).recording f _ c
  | escape site kind body ih =>
    rw [Prelude.judge_escape, Prelude.judge_escape]
    -- both sides compare the same level
    by_cases hlevel : c.level = 0
    · rw [if_pos hlevel, if_pos hlevel]
      exact (forgets_rule _).recording f _ c
    · rw [if_neg hlevel, if_neg hlevel]
      exact ((forgets_rule _).bind fun outside => (ih outside).bind fun j =>
        (forgets_rule _).bind fun type => forgets_pure _).recording f _ c
  | run site body ih =>
    rw [Prelude.judge_run, Prelude.judge_run]
    exact ((ih c).bind fun j => (forgets_rule _).bind fun type => forgets_pure _).recording f _ c
  | lambda site params body ih =>
    rw [Prelude.judge_lambda, Prelude.judge_lambda]
    exact ((forgets_rule _).bind fun types => (ih _).bind fun j => forgets_pure _).recording f _ c
  | call site callee args ihf iha =>
    rw [Prelude.judge_call, Prelude.judge_call]
    exact ((ihf c).bind fun j => (judgeAll_forgets f count p c iha).bind fun types =>
      (forgets_rule _).bind fun type => forgets_pure _).recording f _ c
  | host site name written =>
    rw [Prelude.judge_host, Prelude.judge_host]
    exact ((forgets_rule _).bind fun type => forgets_pure _).recording f _ c
  | held site index =>
    rw [Prelude.judge_held, Prelude.judge_held]
    exact (forgets_rule _).recording f _ c

end Walk

/-! ## The table of a program -/

/-- A table of given entries has the keys of these entries. -/
theorem Table.contains_ofList {α : Type} {es : List (NodeId × α)} {id : NodeId} :
    (Table.ofList es).contains id ↔ id ∈ es.map (·.1) := by
  rw [Table.contains, Option.isSome_iff_exists]
  constructor
  · rintro ⟨v, hv⟩
    exact List.mem_map_of_mem (Table.mem_of_get?_ofList hv)
  · intro h
    rcases List.mem_map.1 h with ⟨⟨key, v⟩, hmem, rfl⟩
    exact Table.get?_ofList_of_mem hmem

/-- Elaboration fails where checking does, with the same fault. -/
theorem elaborate_eq_error_iff {p : Prelude} {t : Term} {fault : Fault} :
    p.elaborate t = .error fault ↔ p.check t = .error fault := by
  let f (t : Term) (_ : Context) (j : Judgement) (table : TypeTable) : TypeTable := table.insert t.id j
  have hwalk := (judge_forgets f .unbounded p t {}).error_iff {} fault
  have helaborate : p.elaborate t = (p.judge .unbounded (recording f) t {}).run {} >>= fun r => .ok ⟨t, r.2⟩ :=
    elaborateWith_eq .unbounded p t
  have hcheck : p.check t = p.checkWith .unbounded {} t >>= fun j => .ok j.type := rfl
  rw [helaborate, hcheck, Except.bind_eq_error, Except.bind_eq_error, hwalk]
  simp

/-- Checking a judged term gives its judgement. -/
theorem Judged.checkIn_eq {p : Prelude} {c : Context} {t : Term} {j : Judgement} {log : Log}
    (h : Judged p c t j log) : p.checkIn c t = .ok j :=
  (judge_forgets _ .unbounded p t c).of_ok (h.run_judge (fun _ _ s => s) ())

/-- A judged term has the type of its judgement. -/
theorem Judged.check_eq {p : Prelude} {t : Term} {j : Judgement} {log : Log} (h : Judged p {} t j log) :
    p.check t = .ok j.type := by
  rw [Prelude.check, h.checkIn_eq]
  rfl

/-- **The elaborator is the checker with a complete table.** For every program, identities shared by several
nodes or not, and every prelude: elaboration fails exactly where checking fails, with the same fault. Where it
succeeds, the table has an entry for the identities of the program's nodes and for no others, and the entry of
the root has the type that checking gives to the program. -/
theorem elaborate_agrees_with_check (p : Prelude) (t : Term) :
    (∀ fault, p.elaborate t = .error fault ↔ p.check t = .error fault) ∧
    ∀ e, p.elaborate t = .ok e →
      e.term = t ∧ (∀ id, e.table.contains id ↔ id ∈ t.ids) ∧
        ∃ type, p.check t = .ok type ∧ e.rootType? = some type := by
  refine ⟨fun fault => elaborate_eq_error_iff, ?_⟩
  intro e he
  rcases elaborate_eq_ok_iff.1 he with ⟨j, log, hj, rfl⟩
  refine ⟨rfl, ?_, j.type, hj.check_eq, rootType?_eq hj⟩
  intro id
  rw [Table.contains_ofList]
  exact hj.perm_ids.mem_iff

/-- `let x = 1; < "s" >`, with the identity of the root on two more nodes. -/
def sharedRoot : Term :=
  .seq ⟨0, {}⟩ (.define ⟨1, {}⟩ "x" (.literal ⟨0, {}⟩ (.int 1)))
    (.quote ⟨2, {}⟩ none false (.literal ⟨0, {}⟩ (.string "s")))

/-- The root is judged last, so the table keeps its type, not those of the nodes that share its identity. -/
theorem elaborate_agrees_with_check_sharedRoot : ∃ e, Prelude.shader.elaborate sharedRoot = .ok e ∧
    sharedRoot.ids = [0, 1, 0, 2, 0] ∧ e.table.keys = [0, 1, 2] ∧
      (∀ id, e.table.contains id ↔ id ∈ sharedRoot.ids) ∧
      Prelude.shader.check sharedRoot = .ok (.base .string 1) ∧ e.rootType? = some (.base .string 1) := by
  obtain ⟨e, he, hkeys⟩ : ∃ e, Prelude.shader.elaborate sharedRoot = .ok e ∧ e.table.keys = [0, 1, 2] :=
    ⟨_, rfl, rfl⟩
  have hcheck : Prelude.shader.check sharedRoot = .ok (.base .string 1) := rfl
  obtain ⟨-, hcontains, type, htype, hroot⟩ := (elaborate_agrees_with_check Prelude.shader sharedRoot).2 e he
  rw [hcheck] at htype
  cases htype
  exact ⟨e, he, rfl, hkeys, hcontains, hcheck, hroot⟩

end Multistage
