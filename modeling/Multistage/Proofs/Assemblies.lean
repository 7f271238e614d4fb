import Mathlib.Data.List.Perm.Basic
import Multistage.Proofs.Supplies
import Multistage.Term.Assembly

/-!
# Terms that are built share no identity

Every construction takes new identities for its node and its parameters and uses each of its operands once.
So at any time the terms that wait on a bench hold exactly the identities that have been handed out, each of
them once.

* `Assembly.Takes` says how many identities a construction takes, what is known of its result, and that it
  fails only for want of identities; `Term.BuiltFrom` is what is known of a term;
* `Step.perform_consumes` is the step lemma, one case for each construction;
* `Bench.Reached` are the benches that calls lead to, with operands from anywhere on the bench, and
  `Bench.Reached.perm_range` is the invariant;
* `built_terms_share_no_identity` is read off from it.
-/

namespace Multistage

/-- The identities of a term are `count` new ones from `start` on, and those of the terms that it was built
from. -/
def Term.BuiltFrom (t : Term) (parts : List Term) (start count : Nat) : Prop :=
  (t.allIds.map UInt32.toNat).Perm
    (List.range' start count ++ (parts.flatMap Term.allIds).map UInt32.toNat)

/-! ## What constructions take -/

namespace Assembly

variable {α β : Type}

/-- From the supply `s` the construction takes `count` identities and has a result with `post`. It fails if
fewer are left. -/
def Takes (c : Assembly α) (s : Supply) (count : Nat) (post : α → Prop) : Prop :=
  if s.next.toNat + count ≤ NodeId.last.toNat then
    ∃ a s', c s = some (a, s') ∧ s'.next.toNat = s.next.toNat + count ∧ post a
  else c s = none

theorem Takes.mono {c : Assembly α} {s : Supply} {count : Nat} {post post' : α → Prop}
    (h : Takes c s count post) (himp : ∀ a, post a → post' a) : Takes c s count post' := by
  unfold Takes at h ⊢
  split
  · next hroom =>
    rw [if_pos hroom] at h
    obtain ⟨a, s', hrun, hnext, hpost⟩ := h
    exact ⟨a, s', hrun, hnext, himp a hpost⟩
  · next hroom => rwa [if_neg hroom] at h

/-- What two steps take together is the sum of what each takes. -/
theorem Takes.bind {c : Assembly α} {f : α → Assembly β} {s : Supply} {count more : Nat} {mid : α → Prop}
    {post : β → Prop} (hc : Takes c s count mid)
    (hf : ∀ a s', s'.next.toNat = s.next.toNat + count → mid a → Takes (f a) s' more post) :
    Takes (c >>= f) s (count + more) post := by
  unfold Takes at hc ⊢
  have hrun : (c >>= f) s = (c s).bind fun r => f r.1 r.2 := rfl
  rw [hrun]
  by_cases hroom : s.next.toNat + count ≤ NodeId.last.toNat
  · rw [if_pos hroom] at hc
    obtain ⟨a, s', ha, hnext, hmid⟩ := hc
    have hrest := hf a s' hnext hmid
    unfold Takes at hrest
    rw [hnext, Nat.add_assoc] at hrest
    rw [ha]
    exact hrest
  · rw [if_neg hroom] at hc
    rw [if_neg (by omega), hc]
    rfl

theorem takes_pure {s : Supply} {a : α} {post : α → Prop} (h : post a) : Takes (pure a) s 0 post := by
  have hlt := s.next.toNat_lt
  have hlast : NodeId.last.toNat = 4294967295 := rfl
  unfold Takes
  rw [if_pos (by omega)]
  exact ⟨a, s, rfl, rfl, h⟩

theorem Takes.map {c : Assembly α} {f : α → β} {s : Supply} {count : Nat} {mid : α → Prop} {post : β → Prop}
    (hc : Takes c s count mid) (hf : ∀ a, mid a → post (f a)) :
    Takes (do return f (← c)) s count post :=
  hc.bind fun a _ _ hmid => takes_pure (hf a hmid)

/-- Asking for an identity takes one, the next of the supply. -/
theorem takes_fresh (s : Supply) : Takes Supply.fresh? s 1 (· = s.next) := by
  have hlt := s.next.toNat_lt
  have hlast : NodeId.last.toNat = 4294967295 := rfl
  unfold Takes
  by_cases hroom : s.next = NodeId.last
  · rw [if_neg (by rw [hroom]; omega)]
    exact if_pos hroom
  · have hne : s.next.toNat ≠ NodeId.last.toNat := fun heq => hroom (UInt32.toNat_inj.1 heq)
    have hsome : s.fresh? = some (s.next, ⟨s.next + 1⟩) := if_neg hroom
    rw [if_pos (by omega)]
    exact ⟨s.next, ⟨s.next + 1⟩, hsome, (fresh?_eq_some hsome).2, rfl⟩

theorem takes_freshSite (s : Supply) : Takes freshSite s 1 fun site => site.id = s.next :=
  (takes_fresh s).map fun _ hid => hid

theorem takes_param (name : String) (type : Option TypeExpr) (s : Supply) :
    Takes (param name type) s 1 fun p => p.id = s.next :=
  (takes_fresh s).map fun _ hid => hid

/-- Parameters take the identities in their order. -/
theorem takes_mapM {f : α → Assembly Param} (hf : ∀ x s, Takes (f x) s 1 fun p => p.id = s.next)
    (xs : List α) (s : Supply) :
    Takes (xs.mapM f) s xs.length fun ps =>
      (ps.map (·.id)).map UInt32.toNat = List.range' s.next.toNat xs.length := by
  induction xs generalizing s with
  | nil => exact takes_pure rfl
  | cons x xs ih =>
    rw [List.mapM_cons, List.length_cons, Nat.add_comm]
    refine (hf x s).bind ?_
    intro p s₁ hnext hid
    refine (ih s₁).map ?_
    intro ps hps
    rw [List.map_cons, List.map_cons, hps, hid, hnext, Nat.add_comm 1, List.range'_succ]

/-! ## What terms are built from -/

/-- A node without parameters holds a new identity and those of its children. -/
theorem takes_node {f : Site → Term} {parts : List Term}
    (hf : ∀ site, (f site).id = site.id ∧ (f site).params = [] ∧ (f site).children = parts) (s : Supply) :
    Takes (do return f (← freshSite)) s 1 fun t => t.BuiltFrom parts s.next.toNat 1 := by
  refine (takes_freshSite s).map ?_
  intro site hsite
  obtain ⟨hid, hparams, hchildren⟩ := hf site
  unfold Term.BuiltFrom
  rw [Term.allIds_eq, hid, hparams, hchildren, hsite]
  exact .refl _

/-- The node of a function comes after its parameters. -/
theorem takes_lambda (params : List (String × Option TypeExpr)) (body : Term) (s : Supply) :
    Takes (lambda params body) s (params.length + 1) fun t =>
      t.BuiltFrom [body] s.next.toNat (params.length + 1) := by
  refine (takes_mapM (fun x s => takes_param x.1 x.2 s) params s).bind ?_
  intro ps s₁ hnext hps
  refine (takes_freshSite s₁).map ?_
  intro site hsite
  unfold Term.BuiltFrom
  rw [Term.allIds_of_one (u := body) rfl, List.range'_1_concat]
  change ((site.id :: (ps.map (·.id) ++ body.allIds)).map UInt32.toNat).Perm _
  rw [List.map_cons, List.map_append, hps, hsite, hnext, List.flatMap_singleton, List.append_assoc]
  exact List.perm_middle.symm

/-- A block takes an identity for each term but the last. -/
theorem takes_block (first : Term) (rest : List Term) (s : Supply) :
    Takes (block first rest) s rest.length fun t =>
      t.BuiltFrom (first :: rest) s.next.toNat rest.length := by
  induction rest generalizing first with
  | nil =>
    apply takes_pure
    unfold Term.BuiltFrom
    rw [List.flatMap_singleton]
    exact .refl _
  | cons second rest ih =>
    -- the terms after the first are put together before the node above them
    refine (ih second).bind ?_
    intro tail s' hnext htail
    have hseq : Takes (seq first tail) s' 1 fun t => t.BuiltFrom [first, tail] s'.next.toNat 1 :=
      takes_node (f := fun site => .seq site first tail) (fun _ => ⟨rfl, rfl, rfl⟩) s'
    refine hseq.mono ?_
    intro t ht
    rw [hnext] at ht
    unfold Term.BuiltFrom at ht htail ⊢
    rw [List.length_cons, List.range'_1_concat]
    rw [List.perm_iff_count] at ht htail ⊢
    intro n
    have hnode := ht n
    have hbelow := htail n
    simp only [List.range'_one, List.flatMap_cons, List.flatMap_nil, List.append_nil, List.map_append,
      List.count_append] at hnode hbelow ⊢
    omega

end Assembly

/-! ## One call -/

namespace Step

/-- Whether a step is one construction. It copies nothing, repeats nothing, and a block has a first term. -/
def IsCall : Step → Prop
  | .dup | .again .. => False
  | .block count => count ≠ 0
  | _ => True

/-- The number of operands of a construction. -/
def arity : Step → Nat
  | .literal _ | .lookup _ | .host .. => 0
  | .seq | .binary _ => 2
  | .block count => count
  | .call count => count + 1
  | _ => 1

/-- The number of identities that a construction takes. -/
def cost : Step → Nat
  | .lambda params => params.length + 1
  | .block count => count - 1
  | _ => 1

end Step

namespace Bench

/-- The result of a call with `arity` operands that takes `cost` identities. The operands come off the
stack, and one term that was built from them is put on top of the rest. The call fails if there are too few
operands or identities. -/
def Consumes (b : Bench) (arity cost : Nat) (result : Option Bench) : Prop :=
  if arity ≤ b.stack.length ∧ b.supply.next.toNat + cost ≤ NodeId.last.toNat then
    ∃ parts rest t s', b.stack.Perm (parts ++ rest) ∧ result = some ⟨t :: rest, s'⟩ ∧
      s'.next.toNat = b.supply.next.toNat + cost ∧ t.BuiltFrom parts b.supply.next.toNat cost
  else result = none

variable {b : Bench} {cost : Nat}

/-- A construction that is pushed consumes its parts, and leaves the rest of the stack alone. -/
theorem consumes_push {c : Assembly Term} (parts : List Term) {rest : List Term}
    (hstack : b.stack.Perm (parts ++ rest))
    (hc : c.Takes b.supply cost fun t => t.BuiltFrom parts b.supply.next.toNat cost) :
    b.Consumes parts.length cost (b.push rest c) := by
  have hlength : parts.length ≤ b.stack.length := by
    rw [hstack.length_eq, List.length_append]
    omega
  unfold Consumes
  unfold Assembly.Takes at hc
  rw [push]
  by_cases hroom : b.supply.next.toNat + cost ≤ NodeId.last.toNat
  · rw [if_pos hroom] at hc
    obtain ⟨t, s', hrun, hnext, hbuilt⟩ := hc
    rw [if_pos ⟨hlength, hroom⟩, hrun]
    exact ⟨parts, rest, t, s', hstack, rfl, hnext, hbuilt⟩
  · rw [if_neg hroom] at hc
    rw [if_neg (fun h => hroom h.2), hc]
    rfl

theorem consumes_none {arity : Nat} (h : b.stack.length < arity) : b.Consumes arity cost none := by
  unfold Consumes
  rw [if_neg (fun hboth => Nat.not_lt.2 hboth.1 h)]

/-- A construction over one term consumes the one on top. -/
theorem consumes_wrap {f : Term → Assembly Term}
    (hf : ∀ t, (f t).Takes b.supply cost fun u => u.BuiltFrom [t] b.supply.next.toNat cost) :
    b.Consumes 1 cost (b.wrap f) := by
  rw [wrap]
  split
  · next t rest hstack => exact consumes_push [t] (hstack ▸ .refl _) (hf t)
  · next hstack => exact consumes_none (by rw [hstack]; exact Nat.zero_lt_one)

/-- A construction over two terms consumes the two on top. -/
theorem consumes_join {f : Term → Term → Assembly Term}
    (hf : ∀ l r, (f l r).Takes b.supply cost fun t => t.BuiltFrom [l, r] b.supply.next.toNat cost) :
    b.Consumes 2 cost (b.join f) := by
  rw [join]
  split
  · next r l rest hstack => exact consumes_push [l, r] (hstack ▸ .swap l r rest) (hf l r)
  · next hshort =>
    apply consumes_none
    match hstack : b.stack with
    | [] => exact Nat.zero_lt_two
    | [_] => exact Nat.one_lt_two
    | r :: l :: rest => exact absurd hstack (hshort r l rest)

/-- A construction over a list of terms consumes as many as it asks for, or does nothing if there are fewer. -/
theorem consumes_gather {count : Nat} {f : Term → List Term → Assembly Term}
    (hf : ∀ t ts, ts.length = count →
      (f t ts).Takes b.supply cost fun u => u.BuiltFrom (t :: ts) b.supply.next.toNat cost) :
    b.Consumes (count + 1) cost (b.gather count f) := by
  rw [gather]
  split
  · next t rest hdrop =>
    have hlong : count < b.stack.length := by
      by_contra hshort
      rw [List.drop_eq_nil_of_le (by omega)] at hdrop
      cases hdrop
    have hlength : (b.stack.take count).reverse.length = count := by
      rw [List.length_reverse, List.length_take]
      omega
    have hperm : b.stack.Perm (t :: (b.stack.take count).reverse ++ rest) := by
      conv_lhs => rw [← List.take_append_drop count b.stack, hdrop]
      exact List.perm_middle.trans (.cons t (.append_right rest (List.reverse_perm _).symm))
    have hpush := consumes_push _ hperm (hf t _ hlength)
    rwa [List.length_cons, hlength] at hpush
  · next hdrop =>
    apply consumes_none
    have hlength := congrArg List.length hdrop
    rw [List.length_drop, List.length_nil] at hlength
    omega

end Bench

/-- What a call does, whatever it constructs. -/
theorem Step.perform_consumes {step : Step} (hcall : step.IsCall) (b : Bench) :
    b.Consumes step.arity step.cost (step.perform b) := by
  -- leaves take nothing from the bench, wrappers one term, joins two, and blocks and calls any number
  cases step with
  | literal value =>
    exact Bench.consumes_push [] (.refl _)
      (Assembly.takes_node (f := fun site => .literal site value) (fun _ => ⟨rfl, rfl, rfl⟩) _)
  | lookup name =>
    exact Bench.consumes_push [] (.refl _)
      (Assembly.takes_node (f := fun site => .lookup site name) (fun _ => ⟨rfl, rfl, rfl⟩) _)
  | host name type =>
    exact Bench.consumes_push [] (.refl _)
      (Assembly.takes_node (f := fun site => .host site name type) (fun _ => ⟨rfl, rfl, rfl⟩) _)
  | define name =>
    exact Bench.consumes_wrap fun t =>
      Assembly.takes_node (f := fun site => .define site name t) (fun _ => ⟨rfl, rfl, rfl⟩) _
  | assign name =>
    exact Bench.consumes_wrap fun t =>
      Assembly.takes_node (f := fun site => .assign site name t) (fun _ => ⟨rfl, rfl, rfl⟩) _
  | neg =>
    exact Bench.consumes_wrap fun t =>
      Assembly.takes_node (f := fun site => .unary site .neg t) (fun _ => ⟨rfl, rfl, rfl⟩) _
  | quote label snippet =>
    exact Bench.consumes_wrap fun t =>
      Assembly.takes_node (f := fun site => .quote site label snippet t) (fun _ => ⟨rfl, rfl, rfl⟩) _
  | escape kind =>
    exact Bench.consumes_wrap fun t =>
      Assembly.takes_node (f := fun site => .escape site kind t) (fun _ => ⟨rfl, rfl, rfl⟩) _
  | run =>
    exact Bench.consumes_wrap fun t =>
      Assembly.takes_node (f := fun site => .run site t) (fun _ => ⟨rfl, rfl, rfl⟩) _
  | lambda params => exact Bench.consumes_wrap fun t => Assembly.takes_lambda params t _
  | seq =>
    exact Bench.consumes_join fun l r =>
      Assembly.takes_node (f := fun site => .seq site l r) (fun _ => ⟨rfl, rfl, rfl⟩) _
  | binary op =>
    exact Bench.consumes_join fun l r =>
      Assembly.takes_node (f := fun site => .binary site op l r) (fun _ => ⟨rfl, rfl, rfl⟩) _
  | block count =>
    -- a block has a first term
    cases count with
    | zero => exact absurd rfl hcall
    | succ count => exact Bench.consumes_gather fun t ts hlength => hlength ▸ Assembly.takes_block t ts _
  | call count =>
    exact Bench.consumes_gather fun t ts _ =>
      Assembly.takes_node (f := fun site => .call site t ts) (fun _ => ⟨rfl, rfl, rfl⟩) _
  | dup => cases hcall
  | again times steps => cases hcall

/-! ## Any number of calls -/

/-- The benches that calls lead to. Any of the terms that wait may be used next, in any order, and each that
is used is gone. -/
inductive Bench.Reached : Bench → Prop where
  | start : Reached {}
  | arrange {b : Bench} {stack : List Term} : Reached b → b.stack.Perm stack → Reached { b with stack }
  | call {b b' : Bench} (step : Step) : Reached b → step.IsCall → step.perform b = some b' → Reached b'

namespace Bench

/-- The identities of the terms on a bench. -/
def ids (b : Bench) : List NodeId := b.stack.flatMap Term.allIds

/-- A call keeps the invariant: what it takes from the supply goes into the new term. -/
theorem perm_range_of_perform {b b' : Bench} {step : Step} (hcall : step.IsCall)
    (hstep : step.perform b = some b')
    (h : (b.ids.map UInt32.toNat).Perm (List.range b.supply.next.toNat)) :
    (b'.ids.map UInt32.toNat).Perm (List.range b'.supply.next.toNat) := by
  have hcons := Step.perform_consumes hcall b
  unfold Consumes at hcons
  split at hcons
  · obtain ⟨parts, rest, t, s', hstack, hresult, hnext, hbuilt⟩ := hcons
    cases hstep.symm.trans hresult
    have hsplit : (b.ids.map UInt32.toNat).Perm
        ((parts.flatMap Term.allIds).map UInt32.toNat ++ (rest.flatMap Term.allIds).map UInt32.toNat) := by
      rw [← List.map_append, ← List.flatMap_append]
      exact (hstack.flatMap_right _).map _
    have hrange : List.range s'.next.toNat =
        List.range b.supply.next.toNat ++ List.range' b.supply.next.toNat step.cost := by
      rw [hnext, List.range_eq_range', List.range_eq_range', ← List.range'_append_1, Nat.zero_add]
    rw [hrange]
    unfold Term.BuiltFrom at hbuilt
    -- each identity is counted, in the operands, in the rest and among the new ones
    rw [List.perm_iff_count] at h hsplit hbuilt ⊢
    intro n
    have hold := h n
    have hparts := hsplit n
    have hnew := hbuilt n
    simp only [ids, List.flatMap_cons, List.map_append, List.count_append] at hold hparts hnew ⊢
    omega
  · cases hstep.symm.trans hcons

/-- The terms on a bench hold the identities that were handed out, each of them once. -/
theorem Reached.perm_range {b : Bench} (h : b.Reached) :
    (b.ids.map UInt32.toNat).Perm (List.range b.supply.next.toNat) := by
  induction h with
  | start => exact .refl _
  | arrange _ hperm ih => exact ((hperm.flatMap_right _).map _).symm.trans ih
  | call step _ hcall hstep ih => exact perm_range_of_perform hcall hstep ih

theorem Reached.nodup_ids {b : Bench} (h : b.Reached) : b.ids.Nodup :=
  (h.perm_range.nodup_iff.2 List.nodup_range).of_map _

theorem Reached.ids_lt {b : Bench} (h : b.Reached) : ∀ id ∈ b.ids, id.toNat < b.supply.next.toNat := by
  intro id hid
  exact List.mem_range.1 (h.perm_range.mem_iff.1 (List.mem_map_of_mem hid))

/-- A call has a result if there are enough operands and identities. -/
theorem exists_perform_iff {step : Step} (hcall : step.IsCall) (b : Bench) :
    (∃ b', step.perform b = some b') ↔
      step.arity ≤ b.stack.length ∧ b.supply.next.toNat + step.cost ≤ NodeId.last.toNat := by
  have hcons := Step.perform_consumes hcall b
  unfold Consumes at hcons
  split at hcons
  · next henough =>
    obtain ⟨parts, rest, t, s', -, hresult, -⟩ := hcons
    exact ⟨fun _ => henough, fun _ => ⟨_, hresult⟩⟩
  · next hlacking =>
    constructor
    · rintro ⟨b', hb'⟩
      cases hb'.symm.trans hcons
    · intro henough
      exact absurd henough hlacking

end Bench

/-- Terms that are built share no identity. Whatever calls have been made, if each term was used at most once,
the identities of the nodes and parameters of all terms that were not used are different, and they lie below
the next one. So a program that is made of one of them has a supply that never hands out an identity of its
term. Each further call succeeds if there are enough operands and identities. -/
theorem built_terms_share_no_identity (b : Bench) (h : b.Reached) :
    b.ids.Nodup ∧
    (∀ id ∈ b.ids, id < b.supply.next) ∧
    (∀ root ∈ b.stack, ∀ requests id, .handed id ∈ ((b.finish root).supply.serveAll requests).1 →
      id ∉ (b.finish root).root.allIds) ∧
    ∀ step : Step, step.IsCall → ((∃ b', step.perform b = some b') ↔
      step.arity ≤ b.stack.length ∧ b.supply.next.toNat + step.cost ≤ NodeId.last.toNat) := by
  refine ⟨h.nodup_ids, ?_, ?_, fun step hcall => Bench.exists_perform_iff hcall b⟩
  · intro id hid
    exact UInt32.lt_iff_toNat_lt.2 (h.ids_lt id hid)
  · intro root hroot requests id hid
    apply not_mem_allIds_of_handed _ hid
    intro used hused
    exact h.ids_lt used (List.mem_flatMap.2 ⟨root, hroot, hused⟩)

/-- A block of a function and two literals, of which the one that was built later comes first. -/
def mixedBlock : Term :=
  .seq ⟨7, {}⟩
    (.lambda ⟨3, {}⟩ [⟨1, "x", none⟩, ⟨2, "y", some (.named "Int")⟩] (.lookup ⟨0, {}⟩ "x"))
    (.seq ⟨6, {}⟩ (.literal ⟨5, {}⟩ (.int 2)) (.literal ⟨4, {}⟩ (.int 1)))

/-- The block and a literal that is left on the bench share no identity. -/
theorem built_terms_share_no_identity_mixedBlock :
    let b : Bench := ⟨[.literal ⟨8, {}⟩ (.string "rest"), mixedBlock], ⟨9⟩⟩
    b.Reached ∧ b.ids = [8, 7, 3, 1, 2, 0, 6, 5, 4] ∧ b.ids.Nodup ∧ (∀ id ∈ b.ids, id < 9) ∧
    (∀ requests id, .handed id ∈ ((b.finish mixedBlock).supply.serveAll requests).1 →
      id ∉ mixedBlock.allIds) ∧
    ∃ b', (Step.call 1).perform b = some b' := by
  intro b
  have hreached : b.Reached := by
    have hlookup : Bench.Reached ⟨[.lookup ⟨0, {}⟩ "x"], ⟨1⟩⟩ := .call (.lookup "x") .start trivial rfl
    have hlambda := hlookup.call (.lambda [("x", none), ("y", some (.named "Int"))]) trivial rfl
    have hone := hlambda.call (.literal (.int 1)) trivial rfl
    have htwo := hone.call (.literal (.int 2)) trivial rfl
    have hswapped := htwo.arrange (.swap _ _ _)
    have hblock := hswapped.call (.block 3) (Nat.succ_ne_zero 2) rfl
    exact hblock.call (.literal (.string "rest")) trivial rfl
  obtain ⟨hnodup, hbelow, hfinish, hcalls⟩ := built_terms_share_no_identity b hreached
  exact ⟨hreached, rfl, hnodup, hbelow, hfinish mixedBlock (List.mem_cons_of_mem _ List.mem_cons_self),
    (hcalls (.call 1) trivial).2 (by decide)⟩

end Multistage
