import Mathlib.Data.Prod.Lex
import Reth.Table

namespace Reth
set_option autoImplicit true

open Batteries

/-- Modelled from the spec: `TransactionId`, a transaction's sender and nonce; its derived order
compares the sender, then the nonce. -/
structure TransactionId where
  sender : Nat
  nonce : Nat
  deriving DecidableEq, Repr

namespace TransactionId

theorem toLex_injective :
    Function.Injective fun id : TransactionId => toLex (id.sender, id.nonce) := by
  rintro ⟨a, b⟩ ⟨c, d⟩ h
  simp only [EmbeddingLike.apply_eq_iff_eq, Prod.mk.injEq] at h
  rw [h.1, h.2]

/-- The order the map from ids keeps its rows in. -/
instance : LinearOrder TransactionId := LinearOrder.lift' _ toLex_injective

/-- The derived `Ord` of `TransactionId`. -/
def cmp : TransactionId → TransactionId → Ordering :=
  compareLex (compareOn sender) (compareOn nonce)

instance : TransCmp cmp := inferInstanceAs (TransCmp (compareLex _ _))

theorem eq_of_cmp_eq {a b : TransactionId} (h : cmp a b = .eq) : a = b := by
  cases a; cases b
  simp only [cmp, compareLex, compareOn, Ordering.then_eq_eq, Nat.compare_eq_eq] at h
  rw [h.1, h.2]

theorem cmp_eq_lt {a b : TransactionId} : cmp a b = .lt ↔ a < b := by
  show _ ↔ toLex (a.sender, a.nonce) < toLex (b.sender, b.nonce)
  simp only [cmp, compareLex, compareOn, Ordering.then_eq_lt, Nat.compare_eq_lt,
    Nat.compare_eq_eq, Prod.Lex.lt_iff]

end TransactionId

/-- Modelled from the spec: what the parked pool reads of a `ValidPoolTransaction`, its id and the
transaction's `max_fee_per_gas`. -/
structure ValidPoolTransaction where
  id : TransactionId
  maxFeePerGas : Option Nat
  deriving DecidableEq, Repr

/-- `Ord for BasefeeOrd`: by base fee, a transaction without one below any with one. -/
def BasefeeOrd.cmp (a b : ValidPoolTransaction) : Ordering :=
  match a.maxFeePerGas, b.maxFeePerGas with
  | some fee, some other => compare fee other
  | none, some _ => .lt
  | some _, none => .gt
  | _, _ => .eq

/-- `Ord for QueuedOrd`: every transaction compares equal. -/
def QueuedOrd.cmp (_ _ : ValidPoolTransaction) : Ordering := .eq

theorem BasefeeOrd.cmp_eq_byKey :
    BasefeeOrd.cmp = Ordering.byKey (fun tx => (tx.maxFeePerGas.map (· + 1)).getD 0) compare := by
  funext a b
  simp only [BasefeeOrd.cmp, Ordering.byKey]
  cases a.maxFeePerGas <;> cases b.maxFeePerGas <;>
    simp [compare, compareOfLessAndEq]

instance : TransCmp BasefeeOrd.cmp := by
  rw [BasefeeOrd.cmp_eq_byKey]
  infer_instance

instance : TransCmp QueuedOrd.cmp where
  symm _ _ := rfl
  le_trans _ _ := nofun

/-- `ParkedPoolTransaction`: a transaction and the submission id it was added with. -/
structure ParkedPoolTransaction where
  submissionId : Nat
  transaction : ValidPoolTransaction
  deriving DecidableEq, Repr

/-- `Ord for ParkedPoolTransaction`: the wrapper's order, then the transaction id. -/
def ParkedPoolTransaction.cmp (ord : ValidPoolTransaction → ValidPoolTransaction → Ordering)
    (a b : ParkedPoolTransaction) : Ordering :=
  (ord a.transaction b.transaction).then (a.transaction.id.cmp b.transaction.id)

instance [TransCmp ord] : TransCmp (ParkedPoolTransaction.cmp ord) :=
  inferInstanceAs (TransCmp (compareLex
    (Ordering.byKey (fun tx : ParkedPoolTransaction => tx.transaction) ord)
    (Ordering.byKey (fun tx : ParkedPoolTransaction => tx.transaction.id) TransactionId.cmp)))

theorem ParkedPoolTransaction.id_eq_of_cmp_eq (h : ParkedPoolTransaction.cmp ord a b = .eq) :
    a.transaction.id = b.transaction.id :=
  TransactionId.eq_of_cmp_eq (Ordering.then_eq_eq.1 h).2

namespace ParkedPoolTransaction

variable (ord : ValidPoolTransaction → ValidPoolTransaction → Ordering)

/-- `PartialEq for ParkedPoolTransaction`: equal when `cmp` says so. -/
def eq (a b : ParkedPoolTransaction) : Bool := cmp ord a b == .eq

/-- `PartialOrd for ParkedPoolTransaction`: the `cmp` order. -/
def partialCmp (a b : ParkedPoolTransaction) : Option Ordering := some (cmp ord a b)

/-- What `Ord`, `PartialOrd` and `Eq` ask of the records' order under the wrapper's order `ord`:
a total order, with `==` and `partial_cmp` read off it, in which two records are equal exactly
when their wrappers are and their ids are one. -/
structure OrdLaws : Prop where
  refl : ∀ a, cmp ord a a = .eq
  swap : ∀ a b, (cmp ord a b).swap = cmp ord b a
  antisymm : ∀ a b, cmp ord a b ≠ .gt → cmp ord b a ≠ .gt → cmp ord a b = .eq
  trans_le : ∀ a b c, cmp ord a b ≠ .gt → cmp ord b c ≠ .gt → cmp ord a c ≠ .gt
  trans_lt : ∀ a b c, cmp ord a b = .lt → cmp ord b c = .lt → cmp ord a c = .lt
  trans_eq : ∀ a b c, cmp ord a b = .eq → cmp ord b c = .eq → cmp ord a c = .eq
  total : ∀ a b, cmp ord a b ≠ .gt ∨ cmp ord b a ≠ .gt
  eq_iff : ∀ a b, eq ord a b = true ↔ cmp ord a b = .eq
  partialCmp_eq : ∀ a b, partialCmp ord a b = some (cmp ord a b)
  cmp_eq_iff : ∀ a b, cmp ord a b = .eq ↔
    ord a.transaction b.transaction = .eq ∧ a.transaction.id = b.transaction.id

variable {ord}

theorem ordLaws [TransCmp ord] : OrdLaws ord where
  refl _ := OrientedCmp.cmp_refl
  swap := OrientedCmp.symm
  antisymm a b h₁ h₂ := by
    cases h : cmp ord a b
    · exact absurd h (OrientedCmp.cmp_ne_gt.1 h₂)
    · rfl
    · exact absurd h h₁
  trans_le _ _ _ := TransCmp.le_trans
  trans_lt _ _ _ := TransCmp.lt_trans
  trans_eq _ _ _ h₁ h₂ := (TransCmp.cmp_congr_left h₁).trans h₂
  total a b := by
    by_cases h : cmp ord a b = .gt
    · exact .inr (by rw [OrientedCmp.cmp_eq_gt.1 h]; exact nofun)
    · exact .inl h
  eq_iff a b := by
    simp only [eq]
    cases cmp ord a b <;> decide
  partialCmp_eq _ _ := rfl
  cmp_eq_iff a b := by
    rw [cmp, Ordering.then_eq_eq]
    exact and_congr_right fun _ =>
      ⟨TransactionId.eq_of_cmp_eq, fun h => h ▸ OrientedCmp.cmp_refl⟩

end ParkedPoolTransaction

/-- Under the base fee order and under the queued order, the records' order is a lawful total
order, with which `==` and `partial_cmp` agree, and under which two records are equal exactly
when their wrappers are and they carry one id. -/
theorem parked_cmp_lawful :
    ParkedPoolTransaction.OrdLaws BasefeeOrd.cmp ∧ ParkedPoolTransaction.OrdLaws QueuedOrd.cmp :=
  ⟨ParkedPoolTransaction.ordLaws, ParkedPoolTransaction.ordLaws⟩

/-- `BTreeSet::insert` on the set's elements in order: `x` in its place, unless an element
compares equal to it, which is kept. -/
def setInsert (cmp : α → α → Ordering) (x : α) : List α → List α
  | [] => [x]
  | y :: ys =>
    match cmp x y with
    | .lt => x :: y :: ys
    | .eq => y :: ys
    | .gt => y :: setInsert cmp x ys

/-- `BTreeSet::remove` on the set's elements in order: drop the element that compares equal to
`x`. -/
def setRemove (cmp : α → α → Ordering) (x : α) : List α → List α
  | [] => []
  | y :: ys =>
    match cmp x y with
    | .lt => y :: ys
    | .eq => ys
    | .gt => y :: setRemove cmp x ys

/-- `ParkedPool`: the submission counter, the transactions by id, and the same transactions in
the wrapper's order. -/
structure ParkedPool where
  submissionId : Nat
  byId : Table TransactionId ParkedPoolTransaction
  best : List ParkedPoolTransaction

namespace ParkedPool

variable (ord : ValidPoolTransaction → ValidPoolTransaction → Ordering)

/-- `ParkedPool::default`. -/
def default : ParkedPool := ⟨0, .empty, []⟩

/-- `ParkedPool::next_id`: the counter, and the pool with it advanced by `wrapping_add`. -/
def nextId (pool : ParkedPool) : Nat × ParkedPool :=
  (pool.submissionId, { pool with submissionId := (pool.submissionId + 1) % 2 ^ 64 })

/-- `ParkedPool::add_transaction`, `none` where the assert panics on an id already included. -/
def addTransaction (pool : ParkedPool) (tx : ValidPoolTransaction) : Option ParkedPool :=
  let id := tx.id
  if (pool.byId.get id).isSome then none
  else
    let (submissionId, pool) := pool.nextId
    let transaction : ParkedPoolTransaction := ⟨submissionId, tx⟩
    some { pool with
      byId := pool.byId.put id transaction
      best := setInsert (ParkedPoolTransaction.cmp ord) transaction pool.best }

/-- `ParkedPool::remove_transaction`: the transaction removed, if the id was in the pool. -/
def removeTransaction (pool : ParkedPool) (id : TransactionId) :
    Option ValidPoolTransaction × ParkedPool :=
  match pool.byId.get id with
  | none => (none, pool)
  | some tx =>
    (some tx.transaction, { pool with
      byId := pool.byId.delete id
      best := setRemove (ParkedPoolTransaction.cmp ord) tx pool.best })

end ParkedPool

end Reth
