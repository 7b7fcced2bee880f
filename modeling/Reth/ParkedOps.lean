import Reth.ParkedRun

namespace Reth
set_option autoImplicit true

open Batteries

theorem pair_sublist_iff_of_pairwise {R : α → α → Prop} {l : List α} (hl : l.Pairwise R)
    (hirr : ∀ a, ¬R a a) (hasymm : ∀ a b, R a b → ¬R b a) (ha : a ∈ l) (hb : b ∈ l) :
    List.Sublist [a, b] l ↔ R a b := by
  refine ⟨fun h => List.pairwise_pair.1 (hl.sublist h), fun hab => ?_⟩
  induction l with
  | nil => cases ha
  | cons x l ih =>
    obtain ⟨hx, hl⟩ := List.pairwise_cons.1 hl
    rcases List.mem_cons.1 ha with rfl | ha'
    · have hb' : b ∈ l := (List.mem_cons.1 hb).resolve_left fun h => hirr a (h ▸ hab)
      exact (List.singleton_sublist.2 hb').cons₂ a
    · rcases List.mem_cons.1 hb with rfl | hb'
      · exact absurd (hx a ha') (hasymm a b hab)
      · exact (ih hl ha' hb').cons x

namespace ParkedPool

variable {ord : ValidPoolTransaction → ValidPoolTransaction → Ordering} [TransCmp ord]

theorem Bijection.sublist_iff (h : Bijection ord pool) (ha : a ∈ pool.best)
    (hb : b ∈ pool.best) :
    List.Sublist [a, b] pool.best ↔ ParkedPoolTransaction.cmp ord a b = .lt :=
  pair_sublist_iff_of_pairwise h.sorted
    (fun x hx => nomatch (ParkedPoolTransaction.ordLaws.refl x).symm.trans hx)
    (fun _ _ => TransCmp.lt_asymm) ha hb

end ParkedPool

/-- On every pool a run reaches, `remove_transaction` returns a transaction of the id asked for
exactly when `by_id` holds the id, and then takes out of `by_id` and `best` exactly the record
stored under it; for an id `by_id` does not hold it returns nothing and leaves the pool as it
was; and a transaction whose id the pool does not hold, added and removed again, comes back and
leaves `by_id` and `best` as they were. -/
theorem parked_pool_remove_add (ord : ValidPoolTransaction → ValidPoolTransaction → Ordering)
    [TransCmp ord] (hrun : Relation.ReflTransGen (ParkedPool.Step ord) ParkedPool.default pool) :
    (∀ i, (∃ tx, (pool.removeTransaction ord i).1 = some tx ∧ tx.id = i) ↔
      (pool.byId.get i).isSome) ∧
    (∀ i rec, pool.byId.get i = some rec →
      (pool.removeTransaction ord i).1 = some rec.transaction ∧
      (∀ j, (pool.removeTransaction ord i).2.byId.get j =
        if j = i then none else pool.byId.get j) ∧
      (pool.removeTransaction ord i).2.best = pool.best.erase rec) ∧
    (∀ i, pool.byId.get i = none → pool.removeTransaction ord i = (none, pool)) ∧
    (∀ tx, pool.byId.get tx.id = none → ∃ pool', pool.addTransaction ord tx = some pool' ∧
      (pool'.removeTransaction ord tx.id).1 = some tx ∧
      (pool'.removeTransaction ord tx.id).2.byId = pool.byId ∧
      (pool'.removeTransaction ord tx.id).2.best = pool.best) := by
  have h := ParkedPool.bijection_of_run hrun
  refine ⟨fun i => ?_, fun i rec hg => ?_, fun i => ParkedPool.removeTransaction_of_get_none,
    fun tx hg => ?_⟩
  · cases hg : pool.byId.get i with
    | none => simp [ParkedPool.removeTransaction_of_get_none hg]
    | some rec =>
      rw [ParkedPool.removeTransaction_of_get hg]
      exact iff_of_true ⟨_, rfl, ((h.get_byId i rec).1 hg).2⟩ rfl
  · rw [ParkedPool.removeTransaction_of_get hg, h.setRemove_eq_erase ((h.get_byId i rec).1 hg).1]
    exact ⟨rfl, fun _ => by simp, rfl⟩
  · have hget : (pool.byId.put tx.id ⟨pool.submissionId, tx⟩).get tx.id =
        some ⟨pool.submissionId, tx⟩ := by simp
    refine ⟨_, ParkedPool.addTransaction_eq_some.2 ⟨hg, rfl⟩, ?_⟩
    rw [ParkedPool.removeTransaction_of_get hget]
    exact ⟨rfl, Table.delete_put_of_get_none hg, setRemove_setInsert (h.cmp_ne_eq_of_get_none hg)⟩

theorem parked_pool_remove_add_equalFee :
    (∀ i, (∃ tx, (equalFeePool.removeTransaction BasefeeOrd.cmp i).1 = some tx ∧ tx.id = i) ↔
      (equalFeePool.byId.get i).isSome) ∧
    (∀ i rec, equalFeePool.byId.get i = some rec →
      (equalFeePool.removeTransaction BasefeeOrd.cmp i).1 = some rec.transaction ∧
      (∀ j, (equalFeePool.removeTransaction BasefeeOrd.cmp i).2.byId.get j =
        if j = i then none else equalFeePool.byId.get j) ∧
      (equalFeePool.removeTransaction BasefeeOrd.cmp i).2.best = equalFeePool.best.erase rec) ∧
    (∀ i, equalFeePool.byId.get i = none →
      equalFeePool.removeTransaction BasefeeOrd.cmp i = (none, equalFeePool)) ∧
    (∀ tx, equalFeePool.byId.get tx.id = none →
      ∃ pool', equalFeePool.addTransaction BasefeeOrd.cmp tx = some pool' ∧
        (pool'.removeTransaction BasefeeOrd.cmp tx.id).1 = some tx ∧
        (pool'.removeTransaction BasefeeOrd.cmp tx.id).2.byId = equalFeePool.byId ∧
        (pool'.removeTransaction BasefeeOrd.cmp tx.id).2.best = equalFeePool.best) :=
  parked_pool_remove_add BasefeeOrd.cmp
    (.tail (.single (.add (feeTx 1) rfl)) (.add (feeTx 2) rfl))

/-- A transaction of the given sender, at nonce 0, with no base fee. -/
def queuedTx (sender : Nat) : ValidPoolTransaction := ⟨⟨sender, 0⟩, none⟩

/-- The default pool under the queued order after adding the transactions of senders 2 and 1, in
this order. -/
def laterFirstPool : ParkedPool :=
  (((ParkedPool.default.addTransaction QueuedOrd.cmp (queuedTx 2)).getD .default).addTransaction
    QueuedOrd.cmp (queuedTx 1)).getD .default

/-- In every pool a run reaches, two records whose wrappers compare equal stand in `best` in the
order of their transaction ids, whatever order they were added in. -/
theorem parked_pool_equal_priority_order
    (ord : ValidPoolTransaction → ValidPoolTransaction → Ordering) [TransCmp ord]
    (hrun : Relation.ReflTransGen (ParkedPool.Step ord) ParkedPool.default pool) :
    ∀ a ∈ pool.best, ∀ b ∈ pool.best, ord a.transaction b.transaction = .eq →
      (List.Sublist [a, b] pool.best ↔ a.transaction.id < b.transaction.id) := by
  intro a ha b hb he
  rw [(ParkedPool.bijection_of_run hrun).sublist_iff ha hb, ParkedPoolTransaction.cmp, he]
  exact TransactionId.cmp_eq_lt

theorem parked_pool_equal_priority_order_queued :
    List.Sublist [(⟨1, queuedTx 1⟩ : ParkedPoolTransaction), ⟨0, queuedTx 2⟩]
      laterFirstPool.best ↔ (queuedTx 1).id < (queuedTx 2).id :=
  parked_pool_equal_priority_order QueuedOrd.cmp
    (.tail (.single (.add (queuedTx 2) rfl)) (.add (queuedTx 1) rfl)) _ (by decide) _
    (by decide) rfl

/-- Under the queued order every two wrappers compare equal, and the record of sender 1, added
second, comes first in `best`: the order among equals is not the order of submission. -/
theorem parked_pool_not_fifo :
    Relation.ReflTransGen (ParkedPool.Step QueuedOrd.cmp) ParkedPool.default laterFirstPool ∧
      ¬∀ a ∈ laterFirstPool.best, ∀ b ∈ laterFirstPool.best,
        QueuedOrd.cmp a.transaction b.transaction = .eq →
          (List.Sublist [a, b] laterFirstPool.best ↔ a.submissionId < b.submissionId) :=
  ⟨.tail (.single (.add (queuedTx 2) rfl)) (.add (queuedTx 1) rfl), by decide⟩

namespace ParkedPool

variable {ord : ValidPoolTransaction → ValidPoolTransaction → Ordering}

/-- A run of pool operations from the default pool, as `Step` takes them, that added `n`
transactions. -/
inductive Reach (ord : ValidPoolTransaction → ValidPoolTransaction → Ordering) :
    ParkedPool → Nat → Prop
  | default : Reach ord default 0
  | add {pool pool' : ParkedPool} {n : Nat} (tx : ValidPoolTransaction) (hr : Reach ord pool n)
      (h : pool.addTransaction ord tx = some pool') : Reach ord pool' (n + 1)
  | remove {pool : ParkedPool} {n : Nat} (id : TransactionId) (hr : Reach ord pool n) :
      Reach ord (pool.removeTransaction ord id).2 n

theorem Reach.run (h : Reach ord pool n) :
    Relation.ReflTransGen (Step ord) ParkedPool.default pool := by
  induction h with
  | default => exact .refl
  | add tx _ h ih => exact ih.tail (.add tx h)
  | remove id _ ih => exact ih.tail (.remove id)

theorem removeTransaction_submissionId (pool : ParkedPool) (id : TransactionId) :
    (pool.removeTransaction ord id).2.submissionId = pool.submissionId := by
  unfold removeTransaction
  split <;> rfl

theorem Reach.submissionId_eq (h : Reach ord pool n) : pool.submissionId = n % 2 ^ 64 := by
  induction h with
  | default => rfl
  | add tx _ h ih =>
    obtain ⟨-, rfl⟩ := addTransaction_eq_some.1 h
    rw [ih, Nat.mod_add_mod]
  | remove id _ ih => rw [removeTransaction_submissionId, ih]

/-- The records' submission ids: below the number of additions, no two alike. -/
structure FreshIds (pool : ParkedPool) (n : Nat) : Prop where
  lt : ∀ r ∈ pool.best, r.submissionId < n
  nodup : (pool.best.map (·.submissionId)).Nodup

theorem Bijection.best_removeTransaction_sublist [TransCmp ord] (h : Bijection ord pool)
    (id : TransactionId) : List.Sublist (pool.removeTransaction ord id).2.best pool.best := by
  cases hg : pool.byId.get id with
  | none => rw [removeTransaction_of_get_none hg]
  | some tx =>
    rw [removeTransaction_of_get hg, h.setRemove_eq_erase ((h.get_byId id tx).1 hg).1]
    exact List.erase_sublist _ _

theorem Reach.freshIds [TransCmp ord] (h : Reach ord pool n) (hn : n ≤ 2 ^ 64) :
    FreshIds pool n := by
  induction h with
  | default => exact ⟨nofun, .nil⟩
  | @add pool pool' n tx hr hadd ih =>
    obtain ⟨hlt, hnd⟩ := ih (by omega)
    obtain ⟨hnone, rfl⟩ := addTransaction_eq_some.1 hadd
    have hs : pool.submissionId = n := by rw [hr.submissionId_eq, Nat.mod_eq_of_lt (by omega)]
    have hperm := setInsert_perm
      ((bijection_of_run hr.run).cmp_ne_eq_of_get_none (s := pool.submissionId) hnone)
    refine ⟨fun r hr' => ?_, ?_⟩
    · rcases List.mem_cons.1 (hperm.mem_iff.1 hr') with rfl | hr'
      · exact hs ▸ Nat.lt_succ_self n
      · exact (hlt r hr').trans (Nat.lt_succ_self n)
    · rw [(hperm.map _).nodup_iff, List.map_cons, List.nodup_cons, hs]
      exact ⟨fun hm => by
        obtain ⟨r, hr', he⟩ := List.mem_map.1 hm
        have he' : r.submissionId = n := he
        exact absurd (hlt r hr') (he' ▸ Nat.lt_irrefl n), hnd⟩
  | @remove pool n id hr ih =>
    obtain ⟨hlt, hnd⟩ := ih hn
    have hsub := (bijection_of_run hr.run).best_removeTransaction_sublist id
    exact ⟨fun r hr' => hlt r (hsub.subset hr'), hnd.sublist (hsub.map _)⟩

end ParkedPool

/-- `next_id` hands out submission ids by `wrapping_add`: after a run with `n` additions the
counter is `n % 2^64`, and while at most 2^64 transactions were added, the records of `best` carry
distinct submission ids, all below `n`. -/
theorem parked_pool_submission_ids (ord : ValidPoolTransaction → ValidPoolTransaction → Ordering)
    [TransCmp ord] (hrun : ParkedPool.Reach ord pool n) :
    pool.submissionId = n % 2 ^ 64 ∧
      (n ≤ 2 ^ 64 → (∀ r ∈ pool.best, r.submissionId < n) ∧
        (pool.best.map (·.submissionId)).Nodup) :=
  ⟨hrun.submissionId_eq, fun hn => ⟨(hrun.freshIds hn).lt, (hrun.freshIds hn).nodup⟩⟩

theorem parked_pool_submission_ids_equalFee :
    equalFeePool.submissionId = 2 % 2 ^ 64 ∧
      (2 ≤ 2 ^ 64 → (∀ r ∈ equalFeePool.best, r.submissionId < 2) ∧
        (equalFeePool.best.map (·.submissionId)).Nodup) :=
  parked_pool_submission_ids BasefeeOrd.cmp
    (.add (feeTx 2) (.add (feeTx 1) .default rfl) rfl)

namespace ParkedPool

variable (ord : ValidPoolTransaction → ValidPoolTransaction → Ordering)

/-- The order `ParkedPoolTransaction::cmp` puts records in, read on their transactions: the
wrapper's order, then the transaction id. -/
def txCmp (a b : ValidPoolTransaction) : Ordering := (ord a b).then (a.id.cmp b.id)

/-- What `best` is for: the transactions `by_id` holds, sorted by `txCmp`. -/
def sortedView (pool : ParkedPool) : List ValidPoolTransaction :=
  (pool.byId.rows.map (·.2.transaction)).mergeSort fun a b => decide (txCmp ord a b ≠ .gt)

variable {ord} [TransCmp ord]

instance : TransCmp (txCmp ord) :=
  inferInstanceAs
    (TransCmp (compareLex ord (Ordering.byKey ValidPoolTransaction.id TransactionId.cmp)))

theorem txCmp_eq_of_ne_gt (hab : txCmp ord a b ≠ .gt) (hba : txCmp ord b a ≠ .gt) :
    txCmp ord a b = .eq := by
  cases h : txCmp ord a b
  · exact absurd (OrientedCmp.cmp_eq_gt.2 h) hba
  · rfl
  · exact absurd h hab

theorem sorted_sortedView (pool : ParkedPool) :
    (pool.sortedView ord).Pairwise fun a b => decide (txCmp ord a b ≠ .gt) = true := by
  refine List.sorted_mergeSort (fun a b c hab hbc => ?_) (fun a b => ?_) _
  · exact decide_eq_true (TransCmp.le_trans (of_decide_eq_true hab) (of_decide_eq_true hbc))
  · cases h : txCmp ord a b
    · rfl
    · rfl
    · rw [OrientedCmp.cmp_eq_gt.1 h]
      rfl

theorem Bijection.best_eq_sortedView (h : Bijection ord pool) :
    pool.best.map (·.transaction) = pool.sortedView ord := by
  have hsorted : (pool.best.map (·.transaction)).Pairwise
      fun a b => decide (txCmp ord a b ≠ .gt) = true :=
    List.pairwise_map.2 (h.sorted.imp fun {x y} hxy => by
      have hlt : txCmp ord x.transaction y.transaction = .lt := hxy
      simp [hlt])
  have hview : pool.byId.rows.map (·.2.transaction) =
      (pool.byId.rows.map Prod.snd).map (·.transaction) := by
    rw [List.map_map]
    rfl
  refine List.Perm.eq_of_sorted (fun a b ha hb hab hba => ?_) hsorted (sorted_sortedView pool) ?_
  · rw [sortedView, List.mem_mergeSort] at hb
    obtain ⟨x, hx, rfl⟩ := List.mem_map.1 ha
    obtain ⟨r, hr, rfl⟩ := List.mem_map.1 hb
    have hy : r.2 ∈ pool.best := ((h.get_byId r.1 r.2).1 (Table.get_eq_some.2 hr)).1
    have he := txCmp_eq_of_ne_gt (of_decide_eq_true hab) (of_decide_eq_true hba)
    exact congrArg _
      (h.eq_of_id_eq hx hy (TransactionId.eq_of_cmp_eq (Ordering.then_eq_eq.1 he).2))
  · rw [sortedView, hview]
    exact (h.values_perm.map _).symm.trans (List.mergeSort_perm _ _).symm

end ParkedPool

/-- On every pool a run reaches, `best` yields the transactions `by_id` holds sorted by the
wrapper's order and then by id; so pools that runs reach holding the same transactions yield them
in the same order, whatever order they were added and removed in. -/
theorem parked_pool_best_sorted (ord : ValidPoolTransaction → ValidPoolTransaction → Ordering)
    [TransCmp ord] (hrun : Relation.ReflTransGen (ParkedPool.Step ord) ParkedPool.default pool) :
    pool.best.map (·.transaction) = pool.sortedView ord ∧
      ∀ pool', Relation.ReflTransGen (ParkedPool.Step ord) ParkedPool.default pool' →
        pool'.byId.rows.map (·.2.transaction) = pool.byId.rows.map (·.2.transaction) →
        pool'.best.map (·.transaction) = pool.best.map (·.transaction) := by
  refine ⟨(ParkedPool.bijection_of_run hrun).best_eq_sortedView, fun pool' hrun' heq => ?_⟩
  rw [(ParkedPool.bijection_of_run hrun).best_eq_sortedView,
    (ParkedPool.bijection_of_run hrun').best_eq_sortedView, ParkedPool.sortedView,
    ParkedPool.sortedView, heq]

theorem parked_pool_best_sorted_equalFee :
    equalFeePool.best.map (·.transaction) = equalFeePool.sortedView BasefeeOrd.cmp ∧
      ∀ pool', Relation.ReflTransGen (ParkedPool.Step BasefeeOrd.cmp) ParkedPool.default pool' →
        pool'.byId.rows.map (·.2.transaction) = equalFeePool.byId.rows.map (·.2.transaction) →
        pool'.best.map (·.transaction) = equalFeePool.best.map (·.transaction) :=
  parked_pool_best_sorted BasefeeOrd.cmp
    (.tail (.single (.add (feeTx 1) rfl)) (.add (feeTx 2) rfl))

end Reth
