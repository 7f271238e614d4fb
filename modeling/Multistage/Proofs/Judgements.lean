import Multistage.Proofs.Tables
import Multistage.Proofs.Terms
import Multistage.Typing.Check

/-!
# Derivations of judgements

The checker is a recursive function with a state. `Judged p c t j log` says the same by rules, one a
construct: in the context `c` the term `t` has the judgement `j`, and `log` lists the judgements of all
its nodes in the order in which they are made. Proofs about terms that elaborate are by cases on it.

Main statements:

* `elaborate_eq_ok_iff`: elaboration succeeds exactly on judged terms, and its table is made of the log;
* `Judged.log_eq`: the judgement of the term itself is the last one;
* `Judged.perm_ids`: the log has one entry a node.
-/

namespace Multistage

/-- Judgements of nodes, in the order in which they are made. -/
abbrev Log := List (NodeId × Judgement)

mutual
/-- In a context a term has a judgement, and its nodes have those of the log. -/
inductive Judged (p : Prelude) : Context → Term → Judgement → Log → Prop where
  | literal {c : Context} {s : Site} {value : Literal} :
    Judged p c (.literal s value) ⟨value.type, c.scope⟩ [(s.id, ⟨value.type, c.scope⟩)]
  | seq {c : Context} {s : Site} {lhs rhs : Term} {first second : Judgement} {a b : Log} :
    Judged p c lhs first a → Judged p (c.withScope first.scope) rhs second b →
    Judged p c (.seq s lhs rhs) second (a ++ b ++ [(s.id, second)])
  | define {c : Context} {s : Site} {name : String} {value : Term} {j : Judgement} {a : Log} :
    Judged p c value j a →
    Judged p c (.define s name value) ⟨j.type, c.bind j.scope name j.type⟩
      (a ++ [(s.id, ⟨j.type, c.bind j.scope name j.type⟩)])
  | assign {c : Context} {s : Site} {name : String} {value : Term} {j : Judgement} {a : Log} :
    Judged p c value j a → p.assignRule c s.id name j.type = .ok () →
    Judged p c (.assign s name value) j (a ++ [(s.id, j)])
  | lookup {c : Context} {s : Site} {name : String} {type : Ty} :
    p.lookupRule c s.id name = .ok type →
    Judged p c (.lookup s name) ⟨type, c.scope⟩ [(s.id, ⟨type, c.scope⟩)]
  | unary {c : Context} {s : Site} {op : UnaryOp} {operand : Term} {j : Judgement} {type : Ty}
      {a : Log} :
    Judged p c operand j a → unaryRule s.id j.type = .ok type →
    Judged p c (.unary s op operand) ⟨type, c.scope⟩ (a ++ [(s.id, ⟨type, c.scope⟩)])
  | binary {c : Context} {s : Site} {op : BinaryOp} {lhs rhs : Term} {first second : Judgement}
      {type : Ty} {a b : Log} :
    Judged p c lhs first a → Judged p (c.withScope first.scope) rhs second b →
    binaryRule p.mode s.id op first.type second.type = .ok type →
    Judged p c (.binary s op lhs rhs) ⟨type, c.scope⟩ (a ++ b ++ [(s.id, ⟨type, c.scope⟩)])
  | quote {c : Context} {s : Site} {label : Option String} {snippet : Bool} {body : Term}
      {j : Judgement} {a : Log} :
    Judged p c.quoted body j a →
    Judged p c (.quote s label snippet body) ⟨j.type.shift 1, c.scope⟩
      (a ++ [(s.id, ⟨j.type.shift 1, c.scope⟩)])
  | escape {c : Context} {s : Site} {kind : EscapeKind} {body : Term} {j : Judgement} {type : Ty}
      {a : Log} :
    c.level ≠ 0 → Judged p c.escaped body j a → escapeRule s.id kind j.type = .ok type →
    Judged p c (.escape s kind body) ⟨type, c.scope⟩ (a ++ [(s.id, ⟨type, c.scope⟩)])
  | run {c : Context} {s : Site} {body : Term} {j : Judgement} {type : Ty} {a : Log} :
    Judged p c body j a → runRule s.id j.type = .ok type →
    Judged p c (.run s body) ⟨type, j.scope⟩ (a ++ [(s.id, ⟨type, j.scope⟩)])
  | lambda {c : Context} {s : Site} {params : List Param} {body : Term} {types : List (String × Ty)}
      {j : Judgement} {a : Log} :
    p.paramRule s.id params = .ok types → Judged p (c.withScope (c.bindAll types)) body j a →
    Judged p c (.lambda s params body) ⟨.function (types.map (·.2)) j.type, c.scope⟩
      (a ++ [(s.id, ⟨.function (types.map (·.2)) j.type, c.scope⟩)])
  | call {c : Context} {s : Site} {callee : Term} {args : List Term} {f : Judgement}
      {types : List Ty} {type : Ty} {a b : Log} :
    Judged p c callee f a → JudgedAll p c args types b → callRule s.id f.type types = .ok type →
    Judged p c (.call s callee args) ⟨type, c.scope⟩ (a ++ b ++ [(s.id, ⟨type, c.scope⟩)])
  | host {c : Context} {s : Site} {name : String} {written : TypeExpr} {type : Ty} :
    p.resolve s.id written = .ok type →
    Judged p c (.host s name written) ⟨type, c.bind c.scope name type⟩
      [(s.id, ⟨type, c.bind c.scope name type⟩)]

/-- In a context arguments have types, and their nodes have the judgements of the log. -/
inductive JudgedAll (p : Prelude) : Context → List Term → List Ty → Log → Prop where
  | nil {c : Context} : JudgedAll p c [] [] []
  | cons {c : Context} {t : Term} {rest : List Term} {j : Judgement} {types : List Ty} {a b : Log} :
    Judged p c t j a → JudgedAll p c rest types b →
    JudgedAll p c (t :: rest) (j.type :: types) (a ++ b)
end

namespace Judged

variable {p : Prelude} {c : Context} {t : Term} {j : Judgement} {log : Log}

/-! ## The log -/

/-- The judgement of a term is made after those of the nodes below it. -/
theorem log_eq (h : Judged p c t j log) : ∃ below, log = below ++ [(t.id, j)] := by
  cases h <;> first | exact ⟨_, rfl⟩ | exact ⟨[], rfl⟩

theorem mem_log (h : Judged p c t j log) : (t.id, j) ∈ log := by
  rcases h.log_eq with ⟨below, rfl⟩
  simp

end Judged

/-- The logs of arguments have one entry a node if those of terms do. -/
theorem JudgedAll.perm_ids {p : Prelude} {c : Context} {ts : List Term} {types : List Ty} {log : Log}
    (h : JudgedAll p c ts types log)
    (ih : ∀ t ∈ ts, ∀ {c j log}, Judged p c t j log → (log.map (·.1)).Perm t.ids) :
    (log.map (·.1)).Perm (ts.flatMap Term.ids) := by
  induction ts generalizing types log with
  | nil =>
    cases h
    exact .nil
  | cons t rest ihrest =>
    cases h with
    | cons ht hrest =>
      have hhead := ih t (by simp) ht
      have htail := ihrest hrest fun u hu => ih u (by simp [hu])
      simpa using hhead.append htail

/-- The log of a term has one entry for each of its nodes. -/
theorem Judged.perm_ids {p : Prelude} {c : Context} {t : Term} {j : Judgement} {log : Log}
    (h : Judged p c t j log) : (log.map (·.1)).Perm t.ids := by
  induction t generalizing c j log with
  | literal | lookup | host =>
    cases h
    simp [Term.ids_eq, Term.children, Term.id, Term.site]
  | seq s lhs rhs ihl ihr | binary s op lhs rhs ihl ihr =>
    cases h
    next hl hr =>
      have hboth := (ihl hl).append (ihr hr)
      simpa [Term.ids_eq, Term.children, Term.id, Term.site] using
        (List.perm_append_singleton _ _).trans (hboth.cons _)
  | define s _ u ih | assign s _ u ih | unary s _ u ih | quote s _ _ u ih | escape s _ u ih
  | run s u ih | lambda s _ u ih =>
    cases h
    next hu =>
      simpa [Term.ids_eq, Term.children, Term.id, Term.site] using
        (List.perm_append_singleton _ _).trans ((ih hu).cons _)
  | call s callee args ihf iha =>
    cases h with
    | call hf ha _ =>
      have hboth := (ihf hf).append (ha.perm_ids iha)
      simpa [Term.ids_eq, Term.children, Term.id, Term.site] using
        (List.perm_append_singleton _ _).trans (hboth.cons _)
  | held => cases h

/-! ## The checker follows the rules -/

/-- The state that the judgements of a log lead to, one after another. -/
def Log.replay {σ : Type} (f : NodeId → Judgement → σ → σ) (log : Log) (s : σ) : σ :=
  log.foldl (fun s e => f e.1 e.2 s) s

section Checker

variable {σ : Type} (f : NodeId → Judgement → σ → σ)

@[simp] theorem Log.replay_nil (s : σ) : Log.replay f [] s = s := rfl

@[simp] theorem Log.replay_cons (id : NodeId) (j : Judgement) (log : Log) (s : σ) :
    Log.replay f ((id, j) :: log) s = Log.replay f log (f id j s) := rfl

@[simp] theorem Log.replay_append (a b : Log) (s : σ) :
    Log.replay f (a ++ b) s = Log.replay f b (Log.replay f a s) := List.foldl_append

/-- What the checker does at each node: judge it and change the state by `f`. -/
def recording {ε : Type} (f : Term → Context → Judgement → σ → σ) (t : Term) (c : Context)
    (judgement : StateT σ (Except ε) Judgement) : StateT σ (Except ε) Judgement := do
  let j ← judgement
  modify (f t c j)
  return j

/-- What the checker does at each node if only the identity counts. -/
def recorder (t : Term) (c : Context) (judgement : StateT σ (Except Fault) Judgement) :
    StateT σ (Except Fault) Judgement := recording (fun t _ j => f t.id j) t c judgement

/-- Elaborating is the walk of the checker that records judgements in a table. -/
theorem elaborateWith_eq {ε : Type} [MonadLiftT (Except Fault) (Except ε)] (count : Counting ε) (p : Prelude)
    (t : Term) : p.elaborateWith count t =
      (p.judge count (recording fun t _ j table => table.insert t.id j) t {}).run {} >>= fun r =>
        .ok ⟨t, r.2⟩ := by
  rcases p with ⟨mode, intrinsics, types⟩
  cases mode <;> rfl

/-- A node is judged and recorded if it is judged. -/
theorem run_recording_eq_ok {ε : Type} {f : Term → Context → Judgement → σ → σ} {t : Term} {c : Context}
    {x : StateT σ (Except ε) Judgement} {s s' : σ} {j : Judgement} :
    (recording f t c x).run s = .ok (j, s') ↔ ∃ s₁, x.run s = .ok (j, s₁) ∧ s' = f t c j s₁ := by
  rw [recording, StateT.run_bind]
  rcases x.run s with fault | ⟨j', s₁⟩
  · constructor
    · intro h
      cases h
    · rintro ⟨s₁, h, -⟩
      cases h
  · constructor
    · intro h
      cases h
      exact ⟨s₁, rfl, rfl⟩
    · rintro ⟨s₂, h, rfl⟩
      cases h
      rfl

/-- A sequence of two computations succeeds if both do. -/
theorem run_bind_eq_ok {ε α β : Type} {x : StateT σ (Except ε) α} {g : α → StateT σ (Except ε) β}
    {s s' : σ} {b : β} :
    (x >>= g).run s = .ok (b, s') ↔
      ∃ a s₁, x.run s = .ok (a, s₁) ∧ (g a).run s₁ = .ok (b, s') := by
  rw [StateT.run_bind]
  rcases x.run s with fault | ⟨a, s₁⟩
  · constructor
    · intro h
      cases h
    · rintro ⟨a, s₁, h, -⟩
      cases h
  · constructor
    · intro h
      exact ⟨a, s₁, rfl, h⟩
    · rintro ⟨a', s₁', h, h'⟩
      cases h
      exact h'

/-- A rule and what follows it succeed if both do; a rule leaves the state alone. -/
theorem run_rule_bind_eq_ok {α β : Type} {x : Except Fault α}
    {g : α → StateT σ (Except Fault) β} {s s' : σ} {b : β} :
    ((liftM x : StateT σ (Except Fault) α) >>= g).run s = .ok (b, s') ↔
      ∃ a, x = .ok a ∧ (g a).run s = .ok (b, s') := by
  cases x with
  | error fault =>
    constructor
    · intro h
      cases h
    · rintro ⟨a, h, -⟩
      cases h
  | ok a =>
    constructor
    · intro h
      exact ⟨a, rfl, h⟩
    · rintro ⟨a', h, h'⟩
      cases h
      exact h'

variable {p : Prelude} {c : Context} {t : Term} {j : Judgement} {log : Log}

/-- Judged arguments are accepted by the checker, with the entries of each of them. -/
theorem JudgedAll.run_judgeAll {ts : List Term} {types : List Ty}
    (h : JudgedAll p c ts types log)
    (ih : ∀ t ∈ ts, ∀ {c j log}, Judged p c t j log → ∀ s,
      (p.judge .unbounded (recorder f) t c).run s = .ok (j, log.replay f s)) (s : σ) :
    (p.judgeAll .unbounded (recorder f) ts c).run s = .ok (types, log.replay f s) := by
  induction ts generalizing types log s with
  | nil =>
    cases h
    rfl
  | cons t rest ihrest =>
    cases h with
    | cons ht hrest =>
      rw [Prelude.judgeAll_cons, Log.replay_append]
      have hhead := ih t (by simp) ht s
      have htail := ihrest hrest (fun u hu => ih u (by simp [hu]))
      exact run_bind_eq_ok.2 ⟨_, _, hhead, run_bind_eq_ok.2 ⟨_, _, htail _, rfl⟩⟩

/-- A judged term passes the checker, and the state becomes that of the log. -/
theorem Judged.run_judge (h : Judged p c t j log) (s : σ) :
    (p.judge .unbounded (recorder f) t c).run s = .ok (j, log.replay f s) := by
  induction t generalizing c j log s with
  | literal =>
    cases h
    rw [Prelude.judge_literal]
    rfl
  | seq site lhs rhs ihl ihr =>
    cases h with
    | seq hl hr =>
      -- the log has the entries of both parts, then that of the node
      rw [Prelude.judge_seq, Log.replay_append, Log.replay_append]
      exact run_recording_eq_ok.2 ⟨_, run_bind_eq_ok.2 ⟨_, _, ihl hl s, ihr hr _⟩, rfl⟩
  | define site name value ih =>
    cases h with
    | define hv =>
      rw [Prelude.judge_define, Log.replay_append]
      exact run_recording_eq_ok.2 ⟨_, run_bind_eq_ok.2 ⟨_, _, ih hv s, rfl⟩, rfl⟩
  | assign site name value ih =>
    cases h with
    | assign hv hrule =>
      rw [Prelude.judge_assign, Log.replay_append]
      exact run_recording_eq_ok.2 ⟨_, run_bind_eq_ok.2 ⟨_, _, ih hv s,
        run_rule_bind_eq_ok.2 ⟨_, hrule, rfl⟩⟩, rfl⟩
  | lookup site name =>
    cases h with
    | lookup hrule =>
      rw [Prelude.judge_lookup_unbounded]
      exact run_recording_eq_ok.2 ⟨_, run_rule_bind_eq_ok.2 ⟨_, hrule, rfl⟩, rfl⟩
  | unary site op operand ih =>
    cases h with
    | unary hv hrule =>
      rw [Prelude.judge_unary, Log.replay_append]
      exact run_recording_eq_ok.2 ⟨_, run_bind_eq_ok.2 ⟨_, _, ih hv s,
        run_rule_bind_eq_ok.2 ⟨_, hrule, rfl⟩⟩, rfl⟩
  | binary site op lhs rhs ihl ihr =>
    cases h with
    | binary hl hr hrule =>
      rw [Prelude.judge_binary, Log.replay_append, Log.replay_append]
      exact run_recording_eq_ok.2 ⟨_, run_bind_eq_ok.2 ⟨_, _, ihl hl s, run_bind_eq_ok.2 ⟨_, _, ihr hr _,
        run_rule_bind_eq_ok.2 ⟨_, hrule, rfl⟩⟩⟩, rfl⟩
  | quote site label snippet body ih =>
    cases h with
    | quote hb =>
      rw [Prelude.judge_quote_unbounded, Log.replay_append]
      exact run_recording_eq_ok.2 ⟨_, run_bind_eq_ok.2 ⟨_, _, ih hb s, rfl⟩, rfl⟩
  | escape site kind body ih =>
    cases h with
    | escape hlevel hb hrule =>
      -- the level is checked before the body
      rw [Prelude.judge_escape_unbounded, if_neg hlevel, Log.replay_append]
      exact run_recording_eq_ok.2 ⟨_, run_bind_eq_ok.2 ⟨_, _, ih hb s,
        run_rule_bind_eq_ok.2 ⟨_, hrule, rfl⟩⟩, rfl⟩
  | run site body ih =>
    cases h with
    | run hb hrule =>
      rw [Prelude.judge_run, Log.replay_append]
      exact run_recording_eq_ok.2 ⟨_, run_bind_eq_ok.2 ⟨_, _, ih hb s,
        run_rule_bind_eq_ok.2 ⟨_, hrule, rfl⟩⟩, rfl⟩
  | lambda site params body ih =>
    cases h with
    | lambda hparams hb =>
      -- the parameters are resolved before the body is judged
      rw [Prelude.judge_lambda_unbounded, Log.replay_append]
      exact run_recording_eq_ok.2 ⟨_, run_rule_bind_eq_ok.2 ⟨_, hparams,
        run_bind_eq_ok.2 ⟨_, _, ih hb s, rfl⟩⟩, rfl⟩
  | call site callee args ihf iha =>
    cases h with
    | call hf ha hrule =>
      rw [Prelude.judge_call, Log.replay_append, Log.replay_append]
      exact run_recording_eq_ok.2 ⟨_, run_bind_eq_ok.2 ⟨_, _, ihf hf s,
        run_bind_eq_ok.2 ⟨_, _, ha.run_judgeAll f iha _,
          run_rule_bind_eq_ok.2 ⟨_, hrule, rfl⟩⟩⟩, rfl⟩
  | host site name written =>
    cases h with
    | host hrule =>
      rw [Prelude.judge_host_unbounded]
      exact run_recording_eq_ok.2 ⟨_, run_rule_bind_eq_ok.2 ⟨_, hrule, rfl⟩, rfl⟩
  -- held references are not in the language of the checker
  | held => cases h

/-- Arguments that the checker accepts are judged. -/
theorem judgedAll_of_run {ts : List Term} {types : List Ty} {s s' : σ}
    (h : (p.judgeAll .unbounded (recorder f) ts c).run s = .ok (types, s'))
    (ih : ∀ t ∈ ts, ∀ {c j s s'}, (p.judge .unbounded (recorder f) t c).run s = .ok (j, s') →
      ∃ log, Judged p c t j log ∧ s' = log.replay f s) :
    ∃ log, JudgedAll p c ts types log ∧ s' = log.replay f s := by
  induction ts generalizing types s with
  | nil =>
    cases h
    exact ⟨[], .nil, rfl⟩
  | cons t rest ihrest =>
    rw [Prelude.judgeAll_cons] at h
    rcases run_bind_eq_ok.1 h with ⟨first, s₁, hhead, h₁⟩
    rcases run_bind_eq_ok.1 h₁ with ⟨others, s₂, htail, h₂⟩
    cases h₂
    rcases ih t (by simp) hhead with ⟨a, ha, rfl⟩
    obtain ⟨b, hb, rfl⟩ := ihrest htail fun u hu => ih u (by simp [hu])
    exact ⟨a ++ b, .cons ha hb, by simp⟩

/-- A term that passes the checker is judged, and the state has become that of the log. -/
theorem judged_of_run {s s' : σ} (h : (p.judge .unbounded (recorder f) t c).run s = .ok (j, s')) :
    ∃ log, Judged p c t j log ∧ s' = log.replay f s := by
  induction t generalizing c j s s' with
  | literal site value =>
    -- every case takes the run apart: the node is recorded last, after its parts and its rule
    rw [Prelude.judge_literal] at h
    rcases run_recording_eq_ok.1 h with ⟨s₀, h₀, rfl⟩
    cases h₀
    exact ⟨_, .literal, rfl⟩
  | seq site lhs rhs ihl ihr =>
    rw [Prelude.judge_seq] at h
    rcases run_recording_eq_ok.1 h with ⟨s₀, h₀, rfl⟩
    rcases run_bind_eq_ok.1 h₀ with ⟨first, s₁, hl, hr⟩
    rcases ihl hl with ⟨a, ha, rfl⟩
    rcases ihr hr with ⟨b, hb, rfl⟩
    exact ⟨_, .seq ha hb, by simp [Term.id, Term.site]⟩
  | define site name value ih =>
    rw [Prelude.judge_define] at h
    rcases run_recording_eq_ok.1 h with ⟨s₀, h₀, rfl⟩
    rcases run_bind_eq_ok.1 h₀ with ⟨first, s₁, hv, h₁⟩
    cases h₁
    rcases ih hv with ⟨a, ha, rfl⟩
    exact ⟨_, .define ha, by simp [Term.id, Term.site]⟩
  | assign site name value ih =>
    rw [Prelude.judge_assign] at h
    rcases run_recording_eq_ok.1 h with ⟨s₀, h₀, rfl⟩
    rcases run_bind_eq_ok.1 h₀ with ⟨first, s₁, hv, h₁⟩
    rcases run_rule_bind_eq_ok.1 h₁ with ⟨_, hrule, h₂⟩
    cases h₂
    rcases ih hv with ⟨a, ha, rfl⟩
    exact ⟨_, .assign ha hrule, by simp [Term.id, Term.site]⟩
  | lookup site name =>
    rw [Prelude.judge_lookup_unbounded] at h
    rcases run_recording_eq_ok.1 h with ⟨s₀, h₀, rfl⟩
    rcases run_rule_bind_eq_ok.1 h₀ with ⟨type, hrule, h₁⟩
    cases h₁
    exact ⟨_, .lookup hrule, rfl⟩
  | unary site op operand ih =>
    rw [Prelude.judge_unary] at h
    rcases run_recording_eq_ok.1 h with ⟨s₀, h₀, rfl⟩
    rcases run_bind_eq_ok.1 h₀ with ⟨first, s₁, hv, h₁⟩
    rcases run_rule_bind_eq_ok.1 h₁ with ⟨type, hrule, h₂⟩
    cases h₂
    rcases ih hv with ⟨a, ha, rfl⟩
    exact ⟨_, .unary ha hrule, by simp [Term.id, Term.site]⟩
  | binary site op lhs rhs ihl ihr =>
    rw [Prelude.judge_binary] at h
    rcases run_recording_eq_ok.1 h with ⟨s₀, h₀, rfl⟩
    rcases run_bind_eq_ok.1 h₀ with ⟨first, s₁, hl, h₁⟩
    rcases run_bind_eq_ok.1 h₁ with ⟨second, s₂, hr, h₂⟩
    rcases run_rule_bind_eq_ok.1 h₂ with ⟨type, hrule, h₃⟩
    cases h₃
    rcases ihl hl with ⟨a, ha, rfl⟩
    rcases ihr hr with ⟨b, hb, rfl⟩
    exact ⟨_, .binary ha hb hrule, by simp [Term.id, Term.site]⟩
  | quote site label snippet body ih =>
    rw [Prelude.judge_quote_unbounded] at h
    rcases run_recording_eq_ok.1 h with ⟨s₀, h₀, rfl⟩
    rcases run_bind_eq_ok.1 h₀ with ⟨first, s₁, hb, h₁⟩
    cases h₁
    rcases ih hb with ⟨a, ha, rfl⟩
    exact ⟨_, .quote ha, by simp [Term.id, Term.site]⟩
  | escape site kind body ih =>
    rw [Prelude.judge_escape_unbounded] at h
    rcases run_recording_eq_ok.1 h with ⟨s₀, h₀, rfl⟩
    split at h₀
    · -- an escape outside all quotes is a fault
      cases h₀
    · next hlevel =>
      rcases run_bind_eq_ok.1 h₀ with ⟨first, s₁, hb, h₁⟩
      rcases run_rule_bind_eq_ok.1 h₁ with ⟨type, hrule, h₂⟩
      cases h₂
      rcases ih hb with ⟨a, ha, rfl⟩
      exact ⟨_, .escape hlevel ha hrule, by simp [Term.id, Term.site]⟩
  | run site body ih =>
    rw [Prelude.judge_run] at h
    rcases run_recording_eq_ok.1 h with ⟨s₀, h₀, rfl⟩
    rcases run_bind_eq_ok.1 h₀ with ⟨first, s₁, hb, h₁⟩
    rcases run_rule_bind_eq_ok.1 h₁ with ⟨type, hrule, h₂⟩
    cases h₂
    rcases ih hb with ⟨a, ha, rfl⟩
    exact ⟨_, .run ha hrule, by simp [Term.id, Term.site]⟩
  | lambda site params body ih =>
    rw [Prelude.judge_lambda_unbounded] at h
    rcases run_recording_eq_ok.1 h with ⟨s₀, h₀, rfl⟩
    -- the parameters come before the body
    rcases run_rule_bind_eq_ok.1 h₀ with ⟨types, hrule, h₁⟩
    rcases run_bind_eq_ok.1 h₁ with ⟨first, s₂, hb, h₂⟩
    cases h₂
    rcases ih hb with ⟨a, ha, rfl⟩
    exact ⟨_, .lambda hrule ha, by simp [Term.id, Term.site]⟩
  | call site callee args ihf iha =>
    rw [Prelude.judge_call] at h
    rcases run_recording_eq_ok.1 h with ⟨s₀, h₀, rfl⟩
    rcases run_bind_eq_ok.1 h₀ with ⟨first, s₁, hf, h₁⟩
    rcases run_bind_eq_ok.1 h₁ with ⟨types, s₂, hargs, h₂⟩
    rcases run_rule_bind_eq_ok.1 h₂ with ⟨type, hrule, h₃⟩
    cases h₃
    rcases ihf hf with ⟨a, ha, rfl⟩
    -- the arguments are judged one by one in the scope of the call
    rcases judgedAll_of_run f hargs iha with ⟨b, hb, rfl⟩
    exact ⟨_, .call ha hb hrule, by simp [Term.id, Term.site]⟩
  | host site name written =>
    rw [Prelude.judge_host_unbounded] at h
    rcases run_recording_eq_ok.1 h with ⟨s₀, h₀, rfl⟩
    rcases run_rule_bind_eq_ok.1 h₀ with ⟨type, hrule, h₁⟩
    cases h₁
    exact ⟨_, .host hrule, rfl⟩
  | held site index =>
    -- no rule judges a held reference
    rw [Prelude.judge_held] at h
    rcases run_recording_eq_ok.1 h with ⟨s₀, h₀, rfl⟩
    cases h₀

end Checker

/-- Elaboration succeeds exactly on terms that are judged from the top level, and its table holds the
judgements of the log. -/
theorem elaborate_eq_ok_iff {p : Prelude} {t : Term} {e : Elaboration} :
    p.elaborate t = .ok e ↔ ∃ j log, Judged p {} t j log ∧ e = ⟨t, Table.ofList log⟩ := by
  let f (id : NodeId) (j : Judgement) (table : TypeTable) : TypeTable := table.insert id j
  have hrun : p.elaborate t = (p.judge .unbounded (recorder f) t {}).run {} >>= fun r =>
      .ok ⟨t, r.2⟩ := elaborateWith_eq .unbounded p t
  rw [hrun]
  constructor
  · intro h
    rcases hj : (p.judge .unbounded (recorder f) t {}).run {} with fault | ⟨j, table⟩
    · rw [hj] at h
      cases h
    · rw [hj] at h
      cases h
      rcases judged_of_run f hj with ⟨log, hlog, rfl⟩
      exact ⟨j, log, hlog, rfl⟩
  · rintro ⟨j, log, hlog, rfl⟩
    rw [hlog.run_judge f {}]
    rfl

end Multistage
