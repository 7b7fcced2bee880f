import Reth.Lifecycle

namespace Reth
set_option autoImplicit true

/-- The links between tables that the two stages keep: every canonical block has its header,
every total difficulty is that of a stored header, every header is stored under its own number,
and every sender is the signer recovered from the transaction at its index. -/
structure Tables.Integrity (db : Tables) : Prop where
  /-- `CanonicalHeaders` points only at stored headers. -/
  canonical : ∀ n h, db.canonicalHeaders.get n = some h → (db.headers.get ⟨n, h⟩).isSome
  /-- `HeaderTD` holds rows only for stored headers. -/
  headerTD : ∀ k, (db.headerTD.get k).isSome → (db.headers.get k).isSome
  /-- `Headers` keys every header by its own number. -/
  headers : ∀ k hd, db.headers.get k = some hd → hd.number = k.number
  /-- `TxSenders` holds only the recovered signers of stored transactions. -/
  txSenders : ∀ i a, db.txSenders.get i = some a →
    ∃ tx, db.transactions.get i = some (some tx) ∧ tx.recoverSigner = some a

namespace Tables.Integrity

variable {db db' : Tables}

theorem writeHeader (hi : db.Integrity) (hd : SealedHeader) : (db.writeHeader hd).Integrity where
  canonical n h hn := by
    rw [writeHeader_canonicalHeaders_get] at hn
    split_ifs at hn with hk
    · obtain rfl := Option.some_inj.1 hn
      subst hk
      show ((db.headers.put hd.numHash hd.header).get hd.numHash).isSome
      simp
    · exact Table.isSome_get_put (hi.canonical n h hn)
  headerTD k hk := Table.isSome_get_put (hi.headerTD k hk)
  headers k v hv := by
    rw [writeHeader_headers_get] at hv
    split_ifs at hv with hk
    · obtain rfl := Option.some_inj.1 hv
      rw [hk]
      rfl
    · exact hi.headers k v hv
  txSenders := hi.txSenders

theorem writeHeaders (hi : db.Integrity) (hs : List SealedHeader) :
    (db.writeHeaders hs).1.Integrity := by
  induction hs with
  | nil => exact hi
  | cons h hs ih =>
    rw [writeHeaders_cons]
    split_ifs
    · exact ih
    · exact ih.writeHeader h

theorem writeTd (hi : db.Integrity) (h : HeaderStage.writeTd db head = .ok db') :
    db'.Integrity := by
  obtain ⟨td, -, h⟩ := except_bind_eq_ok.1 h
  obtain ⟨key, -, h⟩ := except_bind_eq_ok.1 h
  obtain ⟨acc, hacc, h⟩ := except_bind_eq_ok.1 h
  cases h
  obtain ⟨zs, hzs, hkeys⟩ := HeaderStage.foldlM_appendTd_rows hacc
  refine { hi with headerTD := fun k hk => ?_ }
  obtain ⟨v, hv⟩ := Table.isSome_get_iff.1 hk
  have hv' : (k, v) ∈ acc.2.rows := hv
  rw [hzs, List.mem_append] at hv'
  rcases hv' with hv' | hv'
  · exact hi.headerTD k (Table.isSome_get_iff.2 ⟨v, hv'⟩)
  · have hk' := List.mem_map_of_mem Prod.fst hv'
    rw [hkeys] at hk'
    obtain ⟨e, he, hek⟩ := List.mem_map.1 hk'
    have hr : (e.1, e.2) ∈ db.headers.rows := (Table.mem_walk.1 he).1
    rw [hek] at hr
    exact Table.isSome_get_iff.2 ⟨e.2, hr⟩

theorem headers_execute (hi : db.Integrity) (stage : HeaderStage) (input : ExecInput) :
    (stage.execute db input).1.Integrity := by
  obtain ⟨hs, h | ⟨head, h⟩⟩ := HeaderStage.execute_fst stage db input
  · rw [h]
    exact hi.writeHeaders hs
  · exact (hi.writeHeaders hs).writeTd h

theorem headers_unwind (hi : db.Integrity) (input : UnwindInput) :
    (HeaderStage.unwind db input).2.Integrity where
  canonical n h hn := by
    simp only [HeaderStage.unwind, Table.get_unwindByNum, Table.get_unwindByNumHash] at hn ⊢
    split_ifs at hn ⊢
    exact hi.canonical n h hn
  headerTD k hk := by
    simp only [HeaderStage.unwind, Table.get_unwindByNumHash] at hk ⊢
    split_ifs at hk ⊢
    exacts [hi.headerTD k hk, hk]
  headers k v hv := by
    simp only [HeaderStage.unwind, Table.get_unwindByNumHash] at hv
    split_ifs at hv
    exact hi.headers k v hv
  txSenders := hi.txSenders

theorem senders_execute (hi : db.Integrity)
    (h : SendersStage.execute stage db input = .ok (out, db')) : db'.Integrity := by
  obtain ⟨t, ys, rfl, hys, hmem⟩ := SendersStage.execute_ok_walked h
  refine { hi with txSenders := fun i a hia => ?_ }
  have hr : (i, a) ∈ t.rows := Table.get_eq_some.1 hia
  rw [hys, List.mem_append] at hr
  rcases hr with hr | hr
  · exact hi.txSenders i a (Table.get_eq_some.2 hr)
  · obtain ⟨_, _, tx, -, -, hx, hs⟩ := hmem _ hr
    exact ⟨tx, (SendersStage.mem_walkTransactions ((List.takeWhile_sublist _).subset hx)).1, hs⟩

theorem senders_unwind (hi : db.Integrity)
    (h : SendersStage.unwind db input = .ok (out, db')) : db'.Integrity := by
  obtain ⟨b, -, h⟩ := except_bind_eq_ok.1 h
  cases h
  refine { hi with txSenders := fun i a hia => ?_ }
  simp only [Table.get_unwindByNum] at hia
  split_ifs at hia
  exact hi.txSenders i a hia

end Tables.Integrity

/-- One call the pipeline makes on the tables: a forward call of either stage, or an unwind of
either stage that returns (a header unwind always does; a senders unwind that fails writes
nothing). -/
inductive PipelineStep : Tables → Tables → Prop
  | forward {db db' : Tables} (h : ForwardStep db db') : PipelineStep db db'
  | headersUnwind (input : UnwindInput) (db : Tables) :
      PipelineStep db (HeaderStage.unwind db input).2
  | sendersUnwind (input : UnwindInput) {db db' : Tables} {out : UnwindOutput}
      (h : SendersStage.unwind db input = .ok (out, db')) : PipelineStep db db'

theorem PipelineStep.integrity (hi : db.Integrity) (h : PipelineStep db db') : db'.Integrity := by
  cases h with
  | forward h =>
    cases h with
    | headers stage input db => exact hi.headers_execute stage input
    | senders stage input h => exact hi.senders_execute h
  | headersUnwind input db => exact hi.headers_unwind input
  | sendersUnwind input h => exact hi.senders_unwind h

/-- Over every run of the two stages' calls, forward and unwind, in any order, from tables whose
links hold: every canonical block keeps its header, every total difficulty a header, every header
its own number as key, and every `TxSenders` row the signer recovered from the transaction at
its index. -/
theorem pipeline_run_integrity (hi : db.Integrity)
    (h : Relation.ReflTransGen PipelineStep db db') : db'.Integrity := by
  induction h with
  | refl => exact hi
  | tail _ hs ih => exact hs.integrity ih

theorem HeaderStage.genesisDb_integrity : HeaderStage.genesisDb.Integrity where
  canonical n h hn := by
    obtain ⟨rfl, rfl⟩ := Prod.mk.inj (List.mem_singleton.1 (Table.get_eq_some.1 hn))
    rfl
  headerTD k hk := by
    obtain ⟨v, hv⟩ := Table.isSome_get_iff.1 hk
    obtain ⟨rfl, rfl⟩ := Prod.mk.inj (List.mem_singleton.1 hv)
    rfl
  headers k v hv := by
    obtain ⟨rfl, rfl⟩ := Prod.mk.inj (List.mem_singleton.1 (Table.get_eq_some.1 hv))
    rfl
  txSenders i a h := by cases h

theorem pipeline_run_integrity_genesis :
    (HeaderStage.unwind (HeaderStage.timeoutStage.execute HeaderStage.genesisDb
      ⟨none, some 0⟩).1 ⟨0⟩).2.Integrity :=
  pipeline_run_integrity HeaderStage.genesisDb_integrity
    (.tail (.single (.forward (.headers HeaderStage.timeoutStage ⟨none, some 0⟩ _)))
      (.headersUnwind ⟨0⟩ _))

/-- Every `execute` that returns `Ok`, from tables whose links hold, leaves tables on which the
next call, from the progress it reports and in any configuration, passes `update_head` and
`get_head_and_tip`, and so reaches its stream loop. -/
theorem execute_ok_next_starts (stage stage' : HeaderStage) (hi : db.Integrity)
    (h : (stage.execute db input).2 = .ok out) :
    HeaderStage.updateHead (stage.execute db input).1 out.stageProgress = .ok () ∧
      ∃ head tip, stage'.getHeadAndTip (stage.execute db input).1 out.stageProgress =
        .ok (head, tip) := by
  obtain ⟨head, -, hs, l, -, hw, hl, rfl, -⟩ := HeaderStage.execute_eq_ok h
  generalize (stage.execute db input).1 = db₂ at hw hl ⊢
  have hi₁ := hi.writeHeaders hs
  generalize (db.writeHeaders hs).1 = db₁ at hi₁ hw
  obtain ⟨c, hc, hcov⟩ := HeaderStage.writeTd_covers hw
  obtain ⟨t, rfl, -⟩ := HeaderStage.writeTd_eq_ok hw
  have hl₁ : db₁.canonicalHeaders.last = some l := hl
  have hlc : db₁.canonicalHeaders.get l.1 = some l.2 :=
    Table.get_eq_some.2 (List.mem_of_getLast?_eq_some hl₁)
  -- the last canonical block is at or above the one over the head, so the pass covered it
  have hkey : (⟨head.number + 1, c⟩ : BlockNumHash) ≤ ⟨l.1, l.2⟩ := by
    obtain ⟨l', hl', hle⟩ := Table.exists_last_of_get hc
    rw [hl₁, Option.some_inj] at hl'
    subst hl'
    rcases hle.lt_or_eq with hlt | heq
    · exact BlockNumHash.le_iff.2 (.inl hlt)
    · rw [heq, hlc, Option.some_inj] at hc
      rw [heq, hc]
  obtain ⟨hd, hhd⟩ := Option.isSome_iff_exists.1 (hi₁.canonical l.1 l.2 hlc)
  obtain ⟨td, htd⟩ := Option.isSome_iff_exists.1 (hcov _ hkey (hi₁.canonical l.1 l.2 hlc))
  exact ⟨HeaderStage.updateHead_of_get hlc htd,
    _, _, HeaderStage.getHeadAndTip_of_next_none hlc hhd (Table.next_of_last hl₁)⟩

theorem execute_ok_next_starts_linear :
    HeaderStage.updateHead ((linearStage 1 Nat.one_pos).execute HeaderStage.genesisDb
        ⟨none, some 0⟩).1 (⟨1, true, true⟩ : ExecOutput).stageProgress = .ok () ∧
      ∃ head tip, (linearStage 1 Nat.one_pos).getHeadAndTip
        ((linearStage 1 Nat.one_pos).execute HeaderStage.genesisDb ⟨none, some 0⟩).1
        (⟨1, true, true⟩ : ExecOutput).stageProgress = .ok (head, tip) :=
  execute_ok_next_starts (linearStage 1 Nat.one_pos) (linearStage 1 Nat.one_pos)
    HeaderStage.genesisDb_integrity
    (show ((linearStage 1 Nat.one_pos).execute HeaderStage.genesisDb ⟨none, some 0⟩).2 =
      .ok ⟨1, true, true⟩ from rfl)

/-- From tables whose links hold, on any input, downloader and consensus, every `execute` that
returns `Ok` reports a progress strictly above the one it started from: the total difficulty pass
needs a canonical block above the head, which is stored under that progress. -/
theorem execute_ok_progress_lt (stage : HeaderStage) (hi : db.Integrity)
    (h : (stage.execute db input).2 = .ok out) :
    input.stageProgress.getD 0 < out.stageProgress := by
  obtain ⟨head, tip, hs, l, ht, hw, hl, rfl, -⟩ := HeaderStage.execute_eq_ok h
  obtain ⟨c, hc, -⟩ := HeaderStage.writeTd_covers hw
  obtain ⟨t, hdb, -⟩ := HeaderStage.writeTd_eq_ok hw
  -- the head is the header stored under the input progress, so its number is that progress
  have hnum : head.number = input.stageProgress.getD 0 :=
    hi.headers _ _ (HeaderStage.getHeadAndTip_head ht).2
  obtain ⟨l', hl', hle⟩ := Table.exists_last_of_get hc
  rw [hdb] at hl
  obtain rfl : l' = l := Option.some_inj.1 (hl'.symm.trans hl)
  show input.stageProgress.getD 0 < l'.1
  omega

theorem execute_ok_progress_lt_linear :
    (⟨none, some 0⟩ : ExecInput).stageProgress.getD 0 <
      (⟨1, true, true⟩ : ExecOutput).stageProgress :=
  execute_ok_progress_lt (linearStage 1 Nat.one_pos) HeaderStage.genesisDb_integrity
    (show ((linearStage 1 Nat.one_pos).execute HeaderStage.genesisDb ⟨none, some 0⟩).2 =
      .ok ⟨1, true, true⟩ from rfl)

theorem Tables.getBlockBodyByNum_headers_unwind (db : Tables) (u v : Nat) :
    (HeaderStage.unwind db ⟨u⟩).2.getBlockBodyByNum v =
      if v ≤ u then db.getBlockBodyByNum v
      else .error (.databaseIntegrity (.canonicalHeader v)) := by
  simp only [getBlockBodyByNum, getBlockNumhash, getBlockHash, HeaderStage.unwind,
    Table.get_unwindByNum]
  split_ifs <;> rfl

/-- The order of the two stages' unwinds: a senders `unwind` to `v` after a header `unwind` to
`u ≥ v` returns what the pipeline's order (senders first, then headers) gives, and after one to
`u < v` it fails, the canonical hash of block `v` gone. -/
theorem senders_unwind_after_headers_unwind (db : Tables) (u v : Nat) :
    (SendersStage.unwind (HeaderStage.unwind db ⟨u⟩).2 ⟨v⟩).map Prod.snd =
      if v ≤ u then
        (SendersStage.unwind db ⟨v⟩).map fun r => (HeaderStage.unwind r.2 ⟨u⟩).2
      else .error (.databaseIntegrity (.canonicalHeader v)) := by
  unfold SendersStage.unwind
  rw [Tables.getBlockBodyByNum_headers_unwind]
  split_ifs
  · cases db.getBlockBodyByNum v <;> rfl
  · rfl

end Reth
