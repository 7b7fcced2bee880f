import Reth.SendersChunks

namespace Reth
set_option autoImplicit true

theorem range_filter_ge (a e : Nat) : (List.range e).filter (a ≤ ·) = List.range' a (e - a) := by
  induction e with
  | zero => simp
  | succ e ih =>
    rw [List.range_succ, List.filter_append, ih]
    by_cases h : a ≤ e
    · rw [show e + 1 - a = e - a + 1 by omega, List.range'_concat]
      simp [h, show a + 1 * (e - a) = e by omega]
    · simp [h, show e + 1 - a = 0 by omega, show e - a = 0 by omega]

theorem range_filter_le (e c : Nat) :
    (List.range e).filter (· ≤ c) = List.range (min e (c + 1)) := by
  induction e with
  | zero => simp
  | succ e ih =>
    rw [List.range_succ, List.filter_append, ih]
    by_cases h : e ≤ c
    · simp [h, show min (e + 1) (c + 1) = min e (c + 1) + 1 by omega, List.range_succ,
        show min e (c + 1) = e by omega]
    · simp [h, show min (e + 1) (c + 1) = min e (c + 1) by omega]

theorem range'_takeWhile_le (a n c : Nat) :
    (List.range' a n).takeWhile (· ≤ c) = List.range' a (min n (c + 1 - a)) := by
  induction n generalizing a with
  | zero => simp
  | succ n ih =>
    rw [List.range'_succ, List.takeWhile_cons]
    by_cases h : a ≤ c
    · rw [show min (n + 1) (c + 1 - a) = min n (c + 1 - (a + 1)) + 1 by omega,
        List.range'_succ]
      simp [h, ih]
    · simp [h, show c + 1 - a = 0 by omega]

/-- The exclusive end of the transaction indices of blocks `0..n`. -/
def txEnd (body : Nat → StoredBlockBody) (n : Nat) : Nat :=
  (body n).startTxId + (body n).txCount

/-- Rows `(i, f i)` for the indices below `e`, in key order. -/
def rowsBelow (f : Nat → V) (e : Nat) : List (Nat × V) := (List.range e).map fun i => (i, f i)

theorem rowsBelow_append (f : Nat → V) (h : a ≤ b) :
    rowsBelow f a ++ (List.range' a (b - a)).map (fun i => (i, f i)) = rowsBelow f b := by
  have he := List.range'_append_1 0 a (b - a)
  rw [Nat.zero_add, Nat.sub_add_cancel h] at he
  rw [rowsBelow, rowsBelow, ← List.map_append, List.range_eq_range', List.range_eq_range', he]

/-- The walk entry of a decodable transaction whose signer is `signer i`. -/
def SendersStage.entry (signer : Nat → Address) (i : Nat) :
    Except DbError (Nat × TransactionSigned) :=
  .ok (i, ⟨some (signer i)⟩)

theorem rowsBelow_sorted (f : Nat → V) (e : Nat) :
    (rowsBelow f e).Pairwise (fun a b => a.1 < b.1) :=
  List.pairwise_map.2 (List.pairwise_lt_range e)

theorem unwindByNum_rowsBelow {t : Table Nat V} {f : Nat → V} (ht : t.rows = rowsBelow f e)
    (c : Nat) : (t.unwindByNum c).rows = rowsBelow f (min e (c + 1)) := by
  simp only [Table.unwindByNum, Table.retain, ht, rowsBelow, List.filter_map]
  rw [show (fun r : Nat × V => decide (r.1 ≤ c)) ∘ (fun i => (i, f i)) = (· ≤ c) from rfl,
    range_filter_le]

theorem lastTxIndex_add_one (body : Nat → StoredBlockBody) (n : Nat) :
    (body n).lastTxIndex + 1 = max (txEnd body n) 1 := by
  simp only [StoredBlockBody.lastTxIndex, txEnd]
  omega

/-- A database whose blocks `0..p` are laid out as the bodies stage writes them: each canonical
block has a body, the bodies number their transactions from 0 without gaps, and `Transactions`
holds exactly those transactions, the one at index `i` signed by the recoverable `signer i`. -/
structure SendersLayout (db : Tables) (p : Nat) (body : Nat → StoredBlockBody)
    (signer : Nat → Address) : Prop where
  body_get : ∀ n ≤ p, db.getBlockBodyByNum n = .ok (body n)
  start_zero : (body 0).startTxId = 0
  start_succ : ∀ n < p, (body (n + 1)).startTxId = txEnd body n
  transactions :
    db.transactions.rows = rowsBelow (fun i => some ⟨some (signer i)⟩) (txEnd body p)

namespace SendersLayout

variable {db : Tables} {p : Nat} {body : Nat → StoredBlockBody}
  {signer : Nat → Address}

theorem txEnd_mono (hl : SendersLayout db p body signer) {n m : Nat} (hnm : n ≤ m)
    (hm : m ≤ p) : txEnd body n ≤ txEnd body m := by
  revert hm
  induction m, hnm using Nat.le_induction with
  | base => exact fun _ => le_rfl
  | succ m hnm ih =>
    intro hm
    have h₁ := hl.start_succ m (by omega)
    have h₂ := ih (by omega)
    simp only [txEnd] at h₁ h₂ ⊢
    omega

theorem with_txSenders (hl : SendersLayout db p body signer) (t : Table Nat Address) :
    SendersLayout { db with txSenders := t } p body signer :=
  ⟨hl.body_get, hl.start_zero, hl.start_succ, hl.transactions⟩

theorem walkTransactions (hl : SendersLayout db p body signer) (a : Nat) :
    db.walkTransactions a = (List.range' a (txEnd body p - a)).map (SendersStage.entry signer) := by
  simp only [Tables.walkTransactions, Table.walk, hl.transactions, rowsBelow, List.filter_map,
    List.map_map]
  rw [show (fun r : Nat × Option TransactionSigned => decide (a ≤ r.1)) ∘
      (fun i => (i, some (⟨some (signer i)⟩ : TransactionSigned))) = (a ≤ ·) from rfl,
    range_filter_ge]
  rfl

end SendersLayout

namespace SendersStage

variable {signer : Nat → Address}

theorem recoverSigners_entries (xs : List Nat) :
    recoverSigners (xs.map fun i => (i, ⟨some (signer i)⟩)) =
      .ok (xs.map fun i => (i, signer i)) :=
  recoverSigners_eq_ok.2 (by simp only [List.map_map]; rfl)

theorem foldlM_appendChunk (hn : 0 < n) (t : Table Nat Address) (xs : List Nat) :
    (chunks n (xs.map (entry signer))).foldlM appendChunk t =
      appendSenders t (xs.map fun i => (i, signer i)) := by
  have he : xs.map (entry signer) = (xs.map fun i => (i, ⟨some (signer i)⟩)).map .ok := by
    rw [List.map_map]
    rfl
  rw [he, chunks_map, foldlM_appendChunk_of_ok _ t
    (by rw [flatten_chunks hn]; exact recoverSigners_entries xs)]

end SendersStage

namespace SendersLayout

variable {db : Tables} {p : Nat} {body : Nat → StoredBlockBody} {signer : Nat → Address}

/-- One `execute` call from a state where `TxSenders` holds the signers of blocks `0..s`, for a
previous stage at most `p`, when a block `≤ s` carries a transaction or no block `≤ p` does: the
call succeeds, moves the progress forward without passing `p`, and leaves `TxSenders` holding the
signers of the blocks up to its new progress. -/
theorem execute_ok (hl : SendersLayout db p body signer) (stage : SendersStage) (hs : s ≤ p)
    (hq : q ≤ p) (hc : 0 < txEnd body s ∨ txEnd body p = 0)
    (hi : db.txSenders.rows = rowsBelow signer (txEnd body s)) :
    ∃ o t, stage.execute db ⟨some q, some s⟩ = .ok (o, { db with txSenders := t }) ∧
      s ≤ o.stageProgress ∧ o.stageProgress ≤ p ∧
      t.rows = rowsBelow signer (txEnd body o.stageProgress) := by
  unfold SendersStage.execute
  simp only [Option.getD_some, ExecInput.previousStageProgress]
  split_ifs with hm
  · exact ⟨_, db.txSenders, rfl, le_rfl, hs, hi⟩
  set m := min q (addU64 s stage.commitThreshold)
  have hsm : s < m := by omega
  have hmp : m ≤ p := le_trans (min_le_left _ _) hq
  have hsm' := hl.txEnd_mono hsm.le hmp
  have hmp' := hl.txEnd_mono hmp le_rfl
  rw [hl.body_get (s + 1) (by omega), hl.body_get m hmp]
  simp only [except_pure, except_ok_bind, hl.start_succ s (by omega)]
  split_ifs with he
  · refine ⟨_, db.txSenders, rfl, hsm.le, hmp, ?_⟩
    simp only [StoredBlockBody.lastTxIndex, txEnd, gt_iff_lt] at he hsm' ⊢
    rw [hi, txEnd,
      show (body s).startTxId + (body s).txCount = (body m).startTxId + (body m).txCount by
        omega]
  have hrange : (List.range' (txEnd body s) (txEnd body p - txEnd body s)).takeWhile
      (fun i => SendersStage.inRange (body m).lastTxIndex (SendersStage.entry signer i)) =
      List.range' (txEnd body s) (txEnd body m - txEnd body s) := by
    rw [show (fun i => SendersStage.inRange (body m).lastTxIndex (SendersStage.entry signer i)) =
      (· ≤ (body m).lastTxIndex) from rfl, range'_takeWhile_le]
    congr 1
    rw [show (body m).lastTxIndex = txEnd body m - 1 from rfl]
    clear * - hc hsm' hmp'
    omega
  rw [hl.walkTransactions, List.takeWhile_map, Function.comp_def, hrange,
    SendersStage.foldlM_appendChunk stage.batchSize_pos]
  obtain ⟨t', ht', hr'⟩ := SendersStage.appendSenders_of_sorted (t := db.txSenders)
    ((List.range' (txEnd body s) (txEnd body m - txEnd body s)).map fun i => (i, signer i))
    (by rw [hi, rowsBelow_append signer hsm']; exact rowsBelow_sorted _ _)
  refine ⟨_, t', by rw [ht']; rfl, hsm.le, hmp, ?_⟩
  rw [hr', hi, rowsBelow_append signer hsm']

end SendersLayout

end Reth
