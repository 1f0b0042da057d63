import Lockstep.Proofs.Contexts
import Lockstep.Proofs.Footprint
import Lockstep.Proofs.Reachable

/-!
What the outcome of an evaluation depends on.

An evaluation comes by addresses in three ways only: a constant is a reference, a variable holds one, or a
cell does that has been looked up. So whatever it looks up, and whatever reference it yields, can be reached
from the addresses that its constants and variables hold. Tables that agree on its variables and heaps that
agree at the reachable addresses therefore give the same outcome, be it a value or a failure.
-/

namespace Lockstep

theorem Value.address?_of_expectAddress {v : Value} {a : Nat} (address : v.expectAddress = .ok a) :
    v.address? = some a := by
  cases v with
  | ref b t =>
    cases address
    rfl
  | _ => cases address

namespace Expr

/-! ### Addresses at the leaves -/

/-- The address that a leaf holds: that of a constant, or of the value of a variable. -/
def leafAddress? (σ : Symbols) : Expr → Option Nat
  | const v => v.address?
  | var x => σ[x]?.bind Value.address?
  | _ => none

/-- The addresses that the constants and the variables of an expression hold. -/
def addresses (σ : Symbols) (e : Expr) : List Nat :=
  e.nodes.filterMap (leafAddress? σ)

variable {σ σ' : Symbols} {h : Heap} {e l r : Expr}

theorem addresses_join (op : Binary) :
    (op.join l r).addresses σ = l.addresses σ ++ r.addresses σ := by
  have inner : leafAddress? σ (op.join l r) = none := by
    cases op <;> rfl
  simp [addresses, nodes_join, inner]

theorem addresses_read : (read e).addresses σ = e.addresses σ := by
  simp [addresses, nodes, leafAddress?]

theorem reach_addresses_join {op : Binary} {a : Nat}
    (reached : h.Reach (· ∈ l.addresses σ) a ∨ h.Reach (· ∈ r.addresses σ) a) :
    h.Reach (· ∈ (op.join l r).addresses σ) a := by
  rw [addresses_join]
  rcases reached with left | right
  · exact left.mono fun _ => List.mem_append_left _
  · exact right.mono fun _ => List.mem_append_right _

/-! ### Variables -/

theorem eval_join_congr {h' : Heap} (op : Binary) (left : l.eval σ' h' = l.eval σ h)
    (right : r.eval σ' h' = r.eval σ h) : (op.join l r).eval σ' h' = (op.join l r).eval σ h := by
  cases op <;> simp only [Binary.join, eval, left, right]

/-- A variable that does not occur makes no difference. -/
theorem eval_of_sameVariables (same : ∀ x, var x ∈ e.nodes → σ'[x]? = σ[x]?) :
    e.eval σ' h = e.eval σ h := by
  induction e using induct_join with
  | const v => rfl
  | var x => simp only [eval, Symbols.valueOf, same x (List.mem_singleton_self _)]
  | join op l r ihl ihr =>
    simp only [nodes_join, List.mem_append] at same
    exact eval_join_congr op (ihl fun x inside => same x (.inl (.inl inside)))
      (ihr fun x inside => same x (.inl (.inr inside)))
  | read e ih =>
    simp only [eval, ih fun x inside => same x (List.mem_append_left _ inside)]

/-! ### Cells -/

/-- What an expression yields can be reached from its leaves. -/
theorem reach_of_eval {v : Value} (value : e.eval σ h = .ok v) {a : Nat} (holds : v.address? = some a) :
    h.Reach (· ∈ e.addresses σ) a := by
  induction e using induct_join generalizing v a with
  | const w =>
    cases value
    exact .root (by simp [addresses, nodes, leafAddress?, holds])
  | var x =>
    simp only [eval, Symbols.valueOf] at value
    split at value
    next w bound =>
      cases value
      exact .root (by simp [addresses, nodes, leafAddress?, bound, holds])
    next => cases value
  | join op l r =>
    -- no operator yields a reference
    cases v with
    | ref b t => rcases Binary.ty_of_eval_join value with int | bool <;> contradiction
    | _ => cases holds
  | read e ih =>
    obtain ⟨reference, found, value⟩ := Fault.bind_eq_ok value
    obtain ⟨b, address, value⟩ := Fault.bind_eq_ok value
    rw [addresses_read]
    -- the operand leads to a cell that can be reached, and what is in the cell is one link away
    have source : h.Reach (· ∈ e.addresses σ) b := ih found (Value.address?_of_expectAddress address)
    simp only [Heap.get] at value
    split at value
    next w live =>
      cases value
      exact .step source (Heap.target?_eq_some_iff.mpr ⟨v, live, holds⟩)
    next => cases value

theorem mem_lookups_join {op : Binary} {a : Nat} (looked : a ∈ (op.join l r).lookups σ h) :
    a ∈ l.lookups σ h ∨ a ∈ r.lookups σ h := by
  cases op <;>
  · rcases List.mem_append.mp looked with left | right
    · exact .inl left
    · split at right
      next => exact .inr right
      next => cases right

/-- What an evaluation looks up can be reached from the leaves of the expression. -/
theorem reach_of_mem_lookups {a : Nat} (looked : a ∈ e.lookups σ h) : h.Reach (· ∈ e.addresses σ) a := by
  induction e using induct_join with
  | const v => cases looked
  | var x => cases looked
  | join op l r ihl ihr =>
    rcases mem_lookups_join looked with left | right
    · exact reach_addresses_join (.inl (ihl left))
    · exact reach_addresses_join (.inr (ihr right))
  | read e ih =>
    rw [addresses_read]
    rcases List.mem_append.mp looked with inside | itself
    · exact ih inside
    · split at itself
      next b operand =>
        obtain ⟨v, value, address⟩ := Fault.bind_eq_ok operand
        rw [List.mem_singleton.mp itself]
        exact reach_of_eval value (Value.address?_of_expectAddress address)
      next => cases itself

/-- Evaluation depends only on what it can reach. Take two tables that agree on the variables of an
expression, by the same value or by none, and two heaps that agree, in the same way, at every address that
can be reached in the first heap from the addresses that those variables and the constants of the expression
hold. Then the expression has the same value or the same failure under both, and a reference that it yields
has a reachable address. -/
theorem evaluation_stays_within_reach (e : Expr) (σ σ' : Symbols) (h h' : Heap)
    (bindings : ∀ x, var x ∈ e.nodes → σ'[x]? = σ[x]?)
    (cells : ∀ a ∈ h.reachable (e.addresses σ), h'.cells[a]? = h.cells[a]?) :
    e.eval σ' h' = e.eval σ h ∧
      ∀ a t, e.eval σ h = .ok (.ref a t) → a ∈ h.reachable (e.addresses σ) := by
  have reached (a : Nat) : a ∈ h.reachable (e.addresses σ) ↔ h.Reach (· ∈ e.addresses σ) a :=
    h.mem_reachable_iff (e.addresses σ) a
  constructor
  · have same : h.SameAt (e.lookups σ h) h' :=
      fun a looked => cells a ((reached a).mpr (reach_of_mem_lookups looked))
    calc e.eval σ' h' = e.eval σ h' := eval_of_sameVariables bindings
      _ = e.eval σ h := eval_of_sameAt same
  · intro a t value
    exact (reached a).mpr (reach_of_eval value rfl)

/-- A variable leads through two cells to an address without a cell. The tables differ in another variable,
and the heaps in a cell that holds a reference into the chain. -/
theorem evaluation_stays_within_reach_dangling :
    let e := read (read (var "x"))
    let cell (a : Nat) : Value := .ref a .int
    let σ : Symbols := .ofList [("x", cell 1), ("y", cell 3)]
    let σ' : Symbols := .ofList [("x", cell 1)]
    let h : Heap := { cells := .ofList [(1, cell 2), (2, cell 9), (3, cell 1)], next := 4 }
    let h' : Heap := { cells := .ofList [(1, cell 2), (2, cell 9), (4, .bool true)], next := 5 }
    (∀ x, var x ∈ e.nodes → σ'[x]? = σ[x]?) ∧
    (h.reachable (e.addresses σ)).toList = [1, 2, 9] ∧
    (∀ a ∈ h.reachable (e.addresses σ), h'.cells[a]? = h.cells[a]?) ∧
    e.eval σ h = .ok (cell 9) ∧ e.eval σ' h' = e.eval σ h ∧ 9 ∈ h.reachable (e.addresses σ) := by
  intro e cell σ σ' h h'
  have bindings : ∀ x, var x ∈ e.nodes → σ'[x]? = σ[x]? := by
    intro x occurs
    obtain rfl : x = "x" := by simpa [e, nodes] using occurs
    decide
  have listed : (h.reachable (e.addresses σ)).toList = [1, 2, 9] := by decide +kernel
  have cells : ∀ a ∈ h.reachable (e.addresses σ), h'.cells[a]? = h.cells[a]? := by
    intro a reached
    rw [← Std.ExtTreeSet.mem_toList, listed] at reached
    revert a
    decide
  have value : e.eval σ h = .ok (cell 9) := by decide
  obtain ⟨same, inside⟩ := evaluation_stays_within_reach e σ σ' h h' bindings cells
  exact ⟨bindings, listed, cells, value, same, inside 9 .int value⟩

end Expr

end Lockstep
