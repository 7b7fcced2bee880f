import Reth.Parked
import Mathlib.Data.List.Nodup
import Mathlib.Logic.Relation

namespace Reth
set_option autoImplicit true

open Batteries

section SortedSet

variable {cmp : α → α → Ordering}

theorem mem_setInsert (hz : z ∈ setInsert cmp x l) : z = x ∨ z ∈ l := by
  induction l with
  | nil => simpa [setInsert] using hz
  | cons y ys ih =>
    unfold setInsert at hz
    split at hz
    · simpa using hz
    · exact .inr hz
    · rcases List.mem_cons.1 hz with rfl | hz
      · exact .inr (List.mem_cons_self _ _)
      · exact (ih hz).imp_right (List.mem_cons_of_mem _)

theorem setInsert_perm (hx : ∀ y ∈ l, cmp x y ≠ .eq) : (setInsert cmp x l).Perm (x :: l) := by
  induction l with
  | nil => rfl
  | cons y ys ih =>
    unfold setInsert
    split
    · rfl
    · next h => exact absurd h (hx y (List.mem_cons_self _ _))
    · exact ((ih fun z hz => hx z (List.mem_cons_of_mem _ hz)).cons y).trans (.swap x y ys)

variable [TransCmp cmp]

theorem sorted_setInsert (hl : l.Pairwise (cmp · · = .lt)) :
    (setInsert cmp x l).Pairwise (cmp · · = .lt) := by
  induction l with
  | nil => exact List.pairwise_singleton _ _
  | cons y ys ih =>
    obtain ⟨hy, hys⟩ := List.pairwise_cons.1 hl
    unfold setInsert
    split
    · next h =>
      refine List.pairwise_cons.2 ⟨fun z hz => ?_, hl⟩
      rcases List.mem_cons.1 hz with rfl | hz
      · exact h
      · exact TransCmp.lt_trans h (hy z hz)
    · exact hl
    · next h =>
      refine List.pairwise_cons.2 ⟨fun z hz => ?_, ih hys⟩
      rcases mem_setInsert hz with rfl | hz
      · exact OrientedCmp.cmp_eq_gt.1 h
      · exact hy z hz

theorem setRemove_eq_filter (hl : l.Pairwise (cmp · · = .lt)) :
    setRemove cmp x l = l.filter (cmp x · ≠ .eq) := by
  induction l with
  | nil => rfl
  | cons y ys ih =>
    obtain ⟨hy, hys⟩ := List.pairwise_cons.1 hl
    unfold setRemove
    split
    · next h =>
      rw [List.filter_cons_of_pos (by simp [h]), List.filter_eq_self.2 fun z hz => by
        simp [TransCmp.lt_trans h (hy z hz)]]
    · next h =>
      rw [List.filter_cons_of_neg (by simp [h]), List.filter_eq_self.2 fun z hz => by
        simp [TransCmp.cmp_congr_left h ▸ hy z hz]]
    · next h => rw [List.filter_cons_of_pos (by simp [h]), ih hys]

theorem setRemove_setInsert (hx : ∀ y ∈ l, cmp x y ≠ .eq) :
    setRemove cmp x (setInsert cmp x l) = l := by
  have hrefl : cmp x x = .eq := OrientedCmp.cmp_refl
  induction l with
  | nil => simp [setInsert, setRemove, hrefl]
  | cons y ys ih =>
    unfold setInsert
    split
    · simp [setRemove, hrefl]
    · next h => exact absurd h (hx y (List.mem_cons_self _ _))
    · next h =>
      simp only [setRemove, h]
      rw [ih fun z hz => hx z (List.mem_cons_of_mem _ hz)]

end SortedSet

namespace ParkedPool

variable {ord : ValidPoolTransaction → ValidPoolTransaction → Ordering}

theorem addTransaction_eq_some {pool pool' : ParkedPool} {tx : ValidPoolTransaction} :
    pool.addTransaction ord tx = some pool' ↔ pool.byId.get tx.id = none ∧
      pool' = { submissionId := (pool.submissionId + 1) % 2 ^ 64
                byId := pool.byId.put tx.id ⟨pool.submissionId, tx⟩
                best := setInsert (ParkedPoolTransaction.cmp ord) ⟨pool.submissionId, tx⟩
                  pool.best } := by
  cases hg : pool.byId.get tx.id <;>
    simp [addTransaction, nextId, hg, eq_comm]

theorem removeTransaction_of_get {pool : ParkedPool} (hg : pool.byId.get i = some tx) :
    pool.removeTransaction ord i = (some tx.transaction, { pool with
      byId := pool.byId.delete i
      best := setRemove (ParkedPoolTransaction.cmp ord) tx pool.best }) := by
  simp only [removeTransaction, hg]

theorem removeTransaction_of_get_none {pool : ParkedPool} (hg : pool.byId.get i = none) :
    pool.removeTransaction ord i = (none, pool) := by
  simp only [removeTransaction, hg]

/-- The pool's bijection: `by_id` holds each transaction of `best` under its own id and nothing
else, and `best` is in strictly ascending order, as the B-tree keeps it. -/
structure Bijection (ord : ValidPoolTransaction → ValidPoolTransaction → Ordering)
    (pool : ParkedPool) : Prop where
  sorted : pool.best.Pairwise fun a b => ParkedPoolTransaction.cmp ord a b = .lt
  get_byId : ∀ id tx, pool.byId.get id = some tx ↔ tx ∈ pool.best ∧ tx.transaction.id = id

theorem bijection_default : Bijection ord default := ⟨.nil, fun id tx => by simp [default]⟩

namespace Bijection

theorem eq_of_id_eq (h : Bijection ord pool) (hx : x ∈ pool.best) (hy : y ∈ pool.best)
    (hid : x.transaction.id = y.transaction.id) : x = y := by
  have hgx := (h.get_byId _ x).2 ⟨hx, rfl⟩
  rw [(h.get_byId _ y).2 ⟨hy, hid.symm⟩] at hgx
  exact (Option.some.inj hgx).symm

theorem mem_ids (h : Bijection ord pool) {i : TransactionId} :
    i ∈ pool.best.map (·.transaction.id) ↔ i ∈ pool.byId.rows.map Prod.fst := by
  simp only [List.mem_map]
  constructor
  · rintro ⟨x, hx, rfl⟩
    exact ⟨(_, x), Table.get_eq_some.1 ((h.get_byId _ x).2 ⟨hx, rfl⟩), rfl⟩
  · rintro ⟨⟨k, x⟩, hr, rfl⟩
    exact ⟨x, (h.get_byId k x).1 (Table.get_eq_some.2 hr)⟩

theorem cmp_ne_eq_of_get_none (h : Bijection ord pool) {tx : ValidPoolTransaction}
    (hg : pool.byId.get tx.id = none) :
    ∀ y ∈ pool.best, ParkedPoolTransaction.cmp ord ⟨s, tx⟩ y ≠ .eq := fun y hy he => by
  have hy' := (h.get_byId _ y).2 ⟨hy, rfl⟩
  rw [← ParkedPoolTransaction.id_eq_of_cmp_eq he, hg] at hy'
  cases hy'

variable [TransCmp ord]

theorem nodup_best (h : Bijection ord pool) : pool.best.Nodup :=
  h.sorted.imp fun {a _} hab heq => by
    subst heq
    have hrefl : ParkedPoolTransaction.cmp ord a a = .eq := OrientedCmp.cmp_refl
    rw [hrefl] at hab
    cases hab

theorem setRemove_eq_erase (h : Bijection ord pool) (hx : x ∈ pool.best) :
    setRemove (ParkedPoolTransaction.cmp ord) x pool.best = pool.best.erase x := by
  rw [setRemove_eq_filter h.sorted, h.nodup_best.erase_eq_filter]
  refine List.filter_congr fun y hy => ?_
  have hiff : ParkedPoolTransaction.cmp ord x y = .eq ↔ y = x :=
    ⟨fun he => (h.eq_of_id_eq hx hy (ParkedPoolTransaction.id_eq_of_cmp_eq he)).symm,
      fun hyx => hyx ▸ OrientedCmp.cmp_refl⟩
  simp only [ne_eq, hiff]
  by_cases hyx : y = x <;> simp [hyx]

theorem add (h : Bijection ord pool) (hadd : pool.addTransaction ord tx = some pool') :
    Bijection ord pool' := by
  obtain ⟨hnone, rfl⟩ := addTransaction_eq_some.1 hadd
  have hperm := setInsert_perm (h.cmp_ne_eq_of_get_none (s := pool.submissionId) hnone)
  refine ⟨sorted_setInsert h.sorted, fun id x => ?_⟩
  simp only [Table.get_put, hperm.mem_iff, List.mem_cons]
  split_ifs with hid
  · subst hid
    constructor
    · rintro ⟨⟩
      exact ⟨.inl rfl, rfl⟩
    · rintro ⟨rfl | hx, hx'⟩
      · rfl
      · rw [(h.get_byId _ x).2 ⟨hx, hx'⟩] at hnone
        cases hnone
  · rw [h.get_byId]
    constructor
    · rintro ⟨hx, rfl⟩
      exact ⟨.inr hx, rfl⟩
    · rintro ⟨rfl | hx, rfl⟩
      · exact absurd rfl hid
      · exact ⟨hx, rfl⟩

theorem remove (h : Bijection ord pool) (id : TransactionId) :
    Bijection ord (pool.removeTransaction ord id).2 := by
  cases hg : pool.byId.get id with
  | none => rwa [removeTransaction_of_get_none hg]
  | some tx =>
    obtain ⟨htx, htxid⟩ := (h.get_byId id tx).1 hg
    rw [removeTransaction_of_get hg, h.setRemove_eq_erase htx]
    refine ⟨h.sorted.sublist (List.erase_sublist _ _), fun id' x => ?_⟩
    rw [Table.get_delete, h.nodup_best.mem_erase_iff]
    split_ifs with hid
    · refine iff_of_false nofun fun ⟨⟨hne, hx⟩, hxid⟩ => hne ?_
      exact Option.some.inj (((h.get_byId id x).2 ⟨hx, hxid.trans hid⟩).symm.trans hg)
    · rw [h.get_byId]
      refine ⟨fun ⟨hx, hxid⟩ => ⟨⟨fun hxt => hid ?_, hx⟩, hxid⟩, fun ⟨⟨_, hx⟩, hxid⟩ => ⟨hx, hxid⟩⟩
      rw [← hxid, hxt, htxid]

theorem nodup_ids (h : Bijection ord pool) : (pool.best.map (·.transaction.id)).Nodup :=
  h.nodup_best.map_on fun _ hx _ hy => h.eq_of_id_eq hx hy

theorem values_perm (h : Bijection ord pool) : (pool.byId.rows.map Prod.snd).Perm pool.best := by
  have hkey : ∀ r ∈ pool.byId.rows, r.1 = r.2.transaction.id := fun r hr =>
    ((h.get_byId r.1 r.2).1 (Table.get_eq_some.2 hr)).2.symm
  have hnodup : (pool.byId.rows.map Prod.snd).Nodup :=
    List.Nodup.map_on
      (fun a ha b hb hab => Prod.ext ((hkey a ha).trans (hab ▸ (hkey b hb).symm)) hab)
      (pool.byId.sorted.imp fun hab => ne_of_apply_ne Prod.fst (ne_of_lt hab))
  refine (List.perm_ext_iff_of_nodup hnodup h.nodup_best).2 fun x => ?_
  simp only [List.mem_map]
  constructor
  · rintro ⟨r, hr, rfl⟩
    exact ((h.get_byId r.1 r.2).1 (Table.get_eq_some.2 hr)).1
  · intro hx
    exact ⟨(_, x), Table.get_eq_some.1 ((h.get_byId _ x).2 ⟨hx, rfl⟩), rfl⟩

theorem length_eq (h : Bijection ord pool) : pool.byId.rows.length = pool.best.length := by
  rw [← List.length_map pool.byId.rows Prod.snd, h.values_perm.length_eq]

theorem countP_cmp_eq (h : Bijection ord pool) {i : TransactionId}
    (hg : pool.byId.get i = some tx) :
    pool.best.countP (fun y => ParkedPoolTransaction.cmp ord tx y = .eq) = 1 := by
  obtain ⟨htx, -⟩ := (h.get_byId i tx).1 hg
  rw [List.countP_congr fun y hy => ?_, ← List.count, List.count_eq_one_of_mem h.nodup_best htx]
  simp only [decide_eq_true_iff, beq_iff_eq]
  constructor
  · intro he
    exact (h.eq_of_id_eq htx hy (ParkedPoolTransaction.id_eq_of_cmp_eq he)).symm
  · rintro rfl
    exact OrientedCmp.cmp_refl

end Bijection

/-- One operation on the parked pool: an `add_transaction` whose assert passes, or a
`remove_transaction` of any id. -/
inductive Step (ord : ValidPoolTransaction → ValidPoolTransaction → Ordering) :
    ParkedPool → ParkedPool → Prop
  | add {pool pool' : ParkedPool} (tx : ValidPoolTransaction)
      (h : pool.addTransaction ord tx = some pool') : Step ord pool pool'
  | remove {pool : ParkedPool} (id : TransactionId) :
      Step ord pool (pool.removeTransaction ord id).2

theorem Bijection.step [TransCmp ord] (h : Bijection ord pool) (hs : Step ord pool pool') :
    Bijection ord pool' := by
  cases hs with
  | add tx hadd => exact h.add hadd
  | remove id => exact h.remove id

theorem bijection_of_run [TransCmp ord] (hr : Relation.ReflTransGen (Step ord) default pool) :
    Bijection ord pool := by
  induction hr with
  | refl => exact bijection_default
  | tail _ hs ih => exact ih.step hs

end ParkedPool

/-- A transaction of the given sender, at nonce 0, with a base fee of 7. -/
def feeTx (sender : Nat) : ValidPoolTransaction := ⟨⟨sender, 0⟩, some 7⟩

/-- The default pool after adding two transactions of equal base fee. -/
def equalFeePool : ParkedPool :=
  (((ParkedPool.default.addTransaction BasefeeOrd.cmp (feeTx 1)).getD .default).addTransaction
    BasefeeOrd.cmp (feeTx 2)).getD .default

/-- After every run of `add_transaction`s whose assert passes and `remove_transaction`s from the
default pool, under an order the B-tree can keep (the base fee order or the queued order),
`by_id` and `best` are a bijection. -/
theorem parked_pool_bijection (ord : ValidPoolTransaction → ValidPoolTransaction → Ordering)
    [TransCmp ord] (hrun : Relation.ReflTransGen (ParkedPool.Step ord) ParkedPool.default pool) :
    pool.byId.rows.length = pool.best.length ∧
      (∀ id, id ∈ pool.best.map (·.transaction.id) ↔ id ∈ pool.byId.rows.map Prod.fst) ∧
      (∀ id tx, pool.byId.get id = some tx → tx.transaction.id = id ∧
        pool.best.countP (fun y => ParkedPoolTransaction.cmp ord tx y = .eq) = 1) ∧
      (pool.best.map (·.transaction.id)).Nodup := by
  have h := ParkedPool.bijection_of_run hrun
  exact ⟨h.length_eq, fun _ => h.mem_ids,
    fun id tx hg => ⟨((h.get_byId id tx).1 hg).2, h.countP_cmp_eq hg⟩, h.nodup_ids⟩

theorem parked_pool_bijection_equalFee :
    ((equalFeePool.removeTransaction BasefeeOrd.cmp ⟨1, 0⟩).2).byId.rows.length =
        ((equalFeePool.removeTransaction BasefeeOrd.cmp ⟨1, 0⟩).2).best.length ∧
      (∀ id, id ∈ ((equalFeePool.removeTransaction BasefeeOrd.cmp ⟨1, 0⟩).2).best.map
          (·.transaction.id) ↔
        id ∈ ((equalFeePool.removeTransaction BasefeeOrd.cmp ⟨1, 0⟩).2).byId.rows.map
          Prod.fst) ∧
      (∀ id tx,
        ((equalFeePool.removeTransaction BasefeeOrd.cmp ⟨1, 0⟩).2).byId.get id = some tx →
        tx.transaction.id = id ∧
        ((equalFeePool.removeTransaction BasefeeOrd.cmp ⟨1, 0⟩).2).best.countP
          (fun y => ParkedPoolTransaction.cmp BasefeeOrd.cmp tx y = .eq) = 1) ∧
      (((equalFeePool.removeTransaction BasefeeOrd.cmp ⟨1, 0⟩).2).best.map
        (·.transaction.id)).Nodup :=
  parked_pool_bijection BasefeeOrd.cmp
    (.tail (.tail (.single (.add (feeTx 1) rfl)) (.add (feeTx 2) rfl)) (.remove ⟨1, 0⟩))

end Reth
