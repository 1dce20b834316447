import Criteria.Proofs.Rule.Evaluation

/-!
# Chains and nested conditions

A chain goes through its operands one by one. This is the same as to nest the operator in pairs,
from either side: each pair counts as true or false only, it stops where the chain stops, and its
error is the first one that is met. So it does not matter whether conditions are joined, and a
chain that takes in the operands of another one has lost nothing of it.
-/

namespace Criteria.Expr

/-- Conditions nested in pairs from the right. -/
def nestRight (op : BinaryOp) : Expr → List Expr → Expr
  | e, [] => e
  | e, e' :: es => binary op e (nestRight op e' es)

/-- The operands that an expression brings into a chain: its own ones if it is such a chain. -/
def operandsFor (op : BinaryOp) : Expr → List Expr
  | logical op' operands => if op' = op then operands else [logical op' operands]
  | e => [e]

variable {functions : List Function} {vars : Record} {op : BinaryOp}

/-! ## The value of pairs -/

/-- What has the truth value of a chain can stand in another chain for its operands. -/
theorem evalChain_cons_of_eval {e : Expr} {xs : List Expr} {decisive : Bool}
    (h : eval functions vars e = (evalChain functions vars decisive xs).map Value.bool)
    (es : List Expr) :
    evalChain functions vars decisive (e :: es) = evalChain functions vars decisive (xs ++ es) := by
  rw [evalChain_append, evalChain, h]
  cases evalChain functions vars decisive xs <;> rfl

theorem evalChain_cons_congr {decisive : Bool} {es es' : List Expr}
    (h : evalChain functions vars decisive es = evalChain functions vars decisive es') (e : Expr) :
    evalChain functions vars decisive (e :: es) = evalChain functions vars decisive (e :: es') := by
  rw [evalChain, evalChain, h]

theorem evalChain_singleton (decisive : Bool) (e : Expr) :
    evalChain functions vars decisive [e] = (eval functions vars e).map Value.truthy := by
  rw [evalChain, evalChain]
  cases eval functions vars e with
  | error e => rfl
  | ok v =>
    rw [ok_bind, Except.map]
    cases decisive <;> cases v.truthy <;> rfl

section

variable (hop : op.isLogical = true)

include hop

theorem joinAll_eq_logical (l r : Expr) (es : List Expr) :
    joinAll op (l :: r :: es) = logical op (operandsFor op l ++ r :: es) := by
  have hjoin : join op l r = logical op (operandsFor op l ++ [r]) := by
    rw [join, if_pos hop]
    cases l with
    | logical op' operands =>
      by_cases heq : op' = op <;> simp [chain, operandsFor, heq]
    | _ => simp [chain, operandsFor]
  rw [joinAll, List.foldl_cons, hjoin, foldl_join hop, List.append_assoc, List.singleton_append]

/-- A pair is a chain of two. -/
theorem eval_pair (l r : Expr) :
    eval functions vars (binary op l r) =
      (evalChain functions vars (op == .or) [l, r]).map Value.bool := by
  cases op with
  | or | and =>
    rw [eval, evalChain, evalChain_singleton]
    cases eval functions vars l with
    | error e => rfl
    | ok v =>
      rw [ok_bind, ok_bind]
      cases v.truthy <;> cases eval functions vars r <;> rfl
  | _ => cases hop

/-- Pairs nested from the left go on with what they have. -/
theorem eval_foldl_binary {e : Expr} {xs : List Expr}
    (h : eval functions vars e = (evalChain functions vars (op == .or) xs).map Value.bool)
    (es : List Expr) :
    eval functions vars (es.foldl (binary op) e) =
      (evalChain functions vars (op == .or) (xs ++ es)).map Value.bool := by
  induction es generalizing e xs with
  | nil => rw [List.foldl_nil, List.append_nil, h]
  | cons e' es ih =>
    have hpair : eval functions vars (binary op e e') =
        (evalChain functions vars (op == .or) (xs ++ [e'])).map Value.bool := by
      rw [eval_pair hop, evalChain_cons_of_eval h]
    rw [List.foldl_cons, ih hpair, List.append_assoc, List.singleton_append]

theorem eval_nestRight (l r : Expr) (es : List Expr) :
    eval functions vars (nestRight op l (r :: es)) =
      (evalChain functions vars (op == .or) (l :: r :: es)).map Value.bool := by
  induction es generalizing l r with
  | nil => exact eval_pair hop l r
  | cons e es ih =>
    have hrest : evalChain functions vars (op == .or) [nestRight op r (e :: es)] =
        evalChain functions vars (op == .or) (r :: e :: es) := by
      rw [evalChain_cons_of_eval (ih r e), List.append_nil]
    rw [nestRight, eval_pair hop, evalChain_cons_congr hrest]

/-- Joined conditions are one flat chain, which has the value of the pairs nested from the left
and from the right, or fails like them. In particular what is joined to an expression of any form
is evaluated like the pair of the two. -/
theorem eval_joinAll_nested :
    (∀ l r es, joinAll op (l :: r :: es) = logical op (operandsFor op l ++ r :: es) ∧
      eval functions vars (joinAll op (l :: r :: es)) =
        eval functions vars ((r :: es).foldl (binary op) l) ∧
      eval functions vars (joinAll op (l :: r :: es)) =
        eval functions vars (nestRight op l (r :: es))) ∧
    ∀ l r, eval functions vars (join op l r) = eval functions vars (binary op l r) := by
  refine ⟨fun l r es => ⟨joinAll_eq_logical hop l r es, ?_, ?_⟩, fun l r => ?_⟩
  · rw [eval_joinAll hop, List.foldl_cons, eval_foldl_binary hop (eval_pair hop l r)]
    rfl
  · rw [eval_joinAll hop, eval_nestRight hop]
  · exact (eval_joinAll hop l r []).trans (eval_pair hop l r).symm

end

/-- A chain that takes in another one stops before the names that are missing. -/
theorem eval_joinAll_nested_absorbed :
    BinaryOp.isLogical .or = true ∧
      joinAll .or [logical .or [const .null, const (.bool true)], name "a", name "b"] =
        logical .or [const .null, const (.bool true), name "a", name "b"] ∧
      eval [] [] (nestRight .or (logical .or [const .null, const (.bool true)])
        [name "a", name "b"]) = .ok (.bool true) := by
  have hor : BinaryOp.isLogical .or = true := rfl
  obtain ⟨hflat, -, hright⟩ := (@eval_joinAll_nested [] [] _ hor).1
    (logical .or [const .null, const (.bool true)]) (name "a") [name "b"]
  refine ⟨hor, hflat, hright.symm.trans ?_⟩
  rw [hflat, operandsFor, if_pos rfl, List.cons_append, List.cons_append, eval, evalChain, eval,
    evalChain, eval]
  rfl

end Criteria.Expr
