import Reth.SendersRun

namespace Reth
set_option autoImplicit true

namespace SendersStage

theorem appendSenders_rows {t t' : Table Nat Address} (h : appendSenders t ys = .ok t') :
    t'.rows = t.rows ++ ys := by
  induction ys generalizing t with
  | nil =>
    cases h
    simp
  | cons y ys ih =>
    rw [appendSenders, List.foldlM_cons] at h
    obtain ⟨t₁, h₁, h⟩ := except_bind_eq_ok.1 h
    rw [ih h, Table.append_rows (except_mapError_eq_ok.1 h₁), List.append_assoc,
      List.singleton_append]

theorem mem_of_recoverSigners (h : recoverSigners xs = .ok ys) (hy : y ∈ ys) :
    ∃ tx, (y.1, tx) ∈ xs ∧ tx.recoverSigner = some y.2 := by
  have hm : (y.1, some y.2) ∈ xs.map fun e => (e.1, e.2.recoverSigner) := by
    rw [recoverSigners_eq_ok.1 h]
    exact List.mem_map_of_mem _ hy
  obtain ⟨⟨i, tx⟩, hx, he⟩ := List.mem_map.1 hm
  obtain ⟨rfl, hs⟩ := Prod.mk.inj he
  exact ⟨tx, hx, hs⟩

theorem foldlM_appendChunk_rows {cs : List (List (Except DbError (Nat × TransactionSigned)))}
    {t t' : Table Nat Address} (h : cs.foldlM appendChunk t = .ok t') :
    ∃ ys, t'.rows = t.rows ++ ys ∧
      ∀ y ∈ ys, ∃ c ∈ cs, ∃ tx, .ok (y.1, tx) ∈ c ∧ tx.recoverSigner = some y.2 := by
  induction cs generalizing t with
  | nil =>
    cases h
    exact ⟨[], (List.append_nil _).symm, fun _ h => absurd h (List.not_mem_nil _)⟩
  | cons c cs ih =>
    rw [List.foldlM_cons] at h
    obtain ⟨t₁, h₁, h⟩ := except_bind_eq_ok.1 h
    obtain ⟨ys, hys, hmem⟩ := ih h
    obtain ⟨txs, hcol, h₁⟩ := except_bind_eq_ok.1 h₁
    obtain ⟨rs, hrs, h₁⟩ := except_bind_eq_ok.1 h₁
    have hcol' : collect c = .ok txs := except_mapError_eq_ok.1 hcol
    refine ⟨rs ++ ys, by rw [hys, appendSenders_rows h₁, List.append_assoc], fun y hy => ?_⟩
    rcases List.mem_append.1 hy with hy | hy
    · obtain ⟨tx, hx, hs⟩ := mem_of_recoverSigners hrs hy
      exact ⟨c, List.mem_cons_self _ _, tx, mem_of_collect_eq_ok hcol' hx, hs⟩
    · obtain ⟨c', hc', hc''⟩ := hmem y hy
      exact ⟨c', List.mem_cons_of_mem _ hc', hc''⟩

theorem mem_walkTransactions {db : Tables} (h : .ok (i, tx) ∈ db.walkTransactions start) :
    db.transactions.get i = some (some tx) ∧ start ≤ i := by
  obtain ⟨r, hr, he⟩ := List.mem_map.1 h
  obtain ⟨hr, hle⟩ := Table.mem_walk.1 hr
  obtain ⟨k, v⟩ := r
  cases v with
  | none => cases he
  | some tx' =>
    cases he
    exact ⟨Table.get_eq_some.2 hr, hle⟩

theorem execute_eq_ok {stage : SendersStage} {db : Tables} {input : ExecInput}
    (h : stage.execute db input = .ok (out, db')) :
    db' = db ∨ ∃ first last t,
      db.getBlockBodyByNum (input.stageProgress.getD 0 + 1) = .ok first ∧
      db.getBlockBodyByNum out.stageProgress = .ok last ∧
      (chunks stage.batchSize ((db.walkTransactions first.startTxId).takeWhile
        (inRange last.lastTxIndex))).foldlM appendChunk db.txSenders = .ok t ∧
      db' = { db with txSenders := t } := by
  unfold execute at h
  dsimp only at h
  split_ifs at h with hm
  · exact .inl (Prod.mk.inj (Except.ok.inj h.symm)).2
  simp only [except_pure, except_ok_bind] at h
  obtain ⟨b₁, hb₁, h⟩ := except_bind_eq_ok.1 h
  obtain ⟨b₂, hb₂, h⟩ := except_bind_eq_ok.1 h
  split_ifs at h with he
  · exact .inl (Prod.mk.inj (Except.ok.inj h.symm)).2
  obtain ⟨t, ht, h⟩ := except_bind_eq_ok.1 h
  obtain ⟨rfl, rfl⟩ := Prod.mk.inj (Except.ok.inj h.symm)
  exact .inr ⟨b₁, b₂, t, hb₁, hb₂, ht, rfl⟩

theorem execute_ok_walked {stage : SendersStage} {db : Tables} {input : ExecInput}
    (h : stage.execute db input = .ok (out, db')) :
    ∃ t ys, db' = { db with txSenders := t } ∧ t.rows = db.txSenders.rows ++ ys ∧
      ∀ r ∈ ys, ∃ first last tx,
        db.getBlockBodyByNum (input.stageProgress.getD 0 + 1) = .ok first ∧
        db.getBlockBodyByNum out.stageProgress = .ok last ∧
        .ok (r.1, tx) ∈
          (db.walkTransactions first.startTxId).takeWhile (inRange last.lastTxIndex) ∧
        tx.recoverSigner = some r.2 := by
  rcases execute_eq_ok h with rfl | ⟨b₁, b₂, t, hb₁, hb₂, ht, rfl⟩
  · exact ⟨db'.txSenders, [], rfl, (List.append_nil _).symm,
      fun _ h => absurd h (List.not_mem_nil _)⟩
  obtain ⟨ys, hys, hmem⟩ := foldlM_appendChunk_rows ht
  refine ⟨t, ys, rfl, hys, fun r hr => ?_⟩
  obtain ⟨c, hc, tx, hx, hs⟩ := hmem r hr
  exact ⟨b₁, b₂, tx, hb₁, hb₂, mem_of_mem_chunks stage.batchSize_pos hc hx, hs⟩

/-- Every successful `execute`, on any tables and input, changes no table but `TxSenders`, keeps
its rows, and appends after them only rows `(i, a)` where `Transactions` holds at `i` a
transaction whose recovered signer is `a`, with `i` between the `start_tx_id` of block
`stage_progress + 1` and the `last_tx_index` of the block it reports. -/
theorem execute_ok_appends_recovered (stage : SendersStage) (db : Tables) (input : ExecInput)
    (h : stage.execute db input = .ok (out, db')) :
    db' = { db with txSenders := db'.txSenders } ∧
    ∃ ys, db'.txSenders.rows = db.txSenders.rows ++ ys ∧
      ∀ r ∈ ys, (∃ tx, db.transactions.get r.1 = some (some tx) ∧ tx.recoverSigner = some r.2) ∧
        ∃ first last, db.getBlockBodyByNum (input.stageProgress.getD 0 + 1) = .ok first ∧
          db.getBlockBodyByNum out.stageProgress = .ok last ∧
          first.startTxId ≤ r.1 ∧ r.1 ≤ last.lastTxIndex := by
  obtain ⟨t, ys, rfl, hys, hmem⟩ := execute_ok_walked h
  refine ⟨rfl, ys, hys, fun r hr => ?_⟩
  obtain ⟨b₁, b₂, tx, hb₁, hb₂, hx, hs⟩ := hmem r hr
  have hlast : r.1 ≤ b₂.lastTxIndex := by simpa [inRange] using List.mem_takeWhile_imp hx
  obtain ⟨hget, hstart⟩ := mem_walkTransactions ((List.takeWhile_sublist _).subset hx)
  exact ⟨⟨tx, hget, hs⟩, b₁, b₂, hb₁, hb₂, hstart, hlast⟩

end SendersStage

theorem execute_ok_appends_recovered_syncedMiddleDb :
    syncedMiddleDb = { emptyMiddleDb with txSenders := syncedMiddleDb.txSenders } ∧
    ∃ ys, syncedMiddleDb.txSenders.rows = emptyMiddleDb.txSenders.rows ++ ys ∧
      ∀ r ∈ ys, (∃ tx, emptyMiddleDb.transactions.get r.1 = some (some tx) ∧
          tx.recoverSigner = some r.2) ∧
        ∃ first last, emptyMiddleDb.getBlockBodyByNum ((some 1 : Option Nat).getD 0 + 1) =
            .ok first ∧ emptyMiddleDb.getBlockBodyByNum 2 = .ok last ∧
          first.startTxId ≤ r.1 ∧ r.1 ≤ last.lastTxIndex :=
  SendersStage.execute_ok_appends_recovered (SendersStage.mk 1 1 Nat.one_pos) emptyMiddleDb
    ⟨some 2, some 1⟩ (show (SendersStage.mk 1 1 Nat.one_pos).execute emptyMiddleDb
      ⟨some 2, some 1⟩ = .ok (⟨2, true, true⟩, syncedMiddleDb) from rfl)

end Reth
