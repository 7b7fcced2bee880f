import Reth.HeadersRun

namespace Reth
set_option autoImplicit true

namespace HeaderStage

/-- The chunks `execute` streams from the given tables, none when it stops before the stream. -/
def streamedChunks (stage : HeaderStage) (db : Tables) (input : ExecInput) :
    List (List (Except DownloadError SealedHeader)) :=
  let stageProgress := input.stageProgress.getD 0
  match updateHead db stageProgress >>= fun () => stage.getHeadAndTip db stageProgress with
  | .error _ => []
  | .ok (head, tip) => chunks stage.commitThreshold (stage.downloader head tip)

/-- The tables left when `execute` stops right after its `j`-th `commit`: the open transaction
is rolled back, and the chunks committed before it remain. -/
def interruptAfter (stage : HeaderStage) (db : Tables) (input : ExecInput) (j : Nat) : Tables :=
  let stageProgress := input.stageProgress.getD 0
  (streamChunks stageProgress db stageProgress ((stage.streamedChunks db input).take j)).1

theorem streamedChunks_of_headAndTip {stage : HeaderStage} {input : ExecInput}
    (hs : input.stageProgress = some s)
    (hu : updateHead db s = .ok ()) (ht : stage.getHeadAndTip db s = .ok (head, tip)) :
    stage.streamedChunks db input = chunks stage.commitThreshold (stage.downloader head tip) := by
  simp only [streamedChunks, hs, Option.getD_some, hu, ht, except_ok_bind]

theorem streamedChunks_of_error {stage : HeaderStage} {input : ExecInput}
    (hs : input.stageProgress = some s)
    (hu : updateHead db s = .ok ()) (ht : stage.getHeadAndTip db s = .error e) :
    stage.streamedChunks db input = [] := by
  simp only [streamedChunks, hs, Option.getD_some, hu, ht, except_ok_bind]

theorem interruptAfter_chain {c : Chain} {stage : HeaderStage} {input : ExecInput}
    (hs : input.stageProgress = some p)
    (hsc : stage.streamedChunks db input =
      (chunks stage.commitThreshold (c.descending t p)).map (List.map .ok))
    (hj : j * stage.commitThreshold ≤ t - p) :
    stage.interruptAfter db input j =
      (db.writeHeaders ((topHeights t (j * stage.commitThreshold)).map c.header)).1 := by
  have hk := stage.commitThreshold_pos
  obtain ⟨cur, he, -⟩ := HeaderStage.streamChunks_top (c := c) hk db hj
  simp only [HeaderStage.interruptAfter, hs, Option.getD_some, hsc, ← List.map_take,
    chunks_take hk, Chain.descending_take hj, he]

end HeaderStage

namespace HeadersAt

variable {c : Chain} {g : Nat} {db : Tables} {p l u : Nat}

theorem getHeadAndTip_top (h : HeadersAt c g db p l u) (stage : HeaderStage) (hpt : p < t)
    (hadj : u < l ∨ t + 1 = l) (hm : 0 < m) (hmt : m < t - p) :
    stage.getHeadAndTip (db.writeHeaders ((topHeights t m).map c.header)).1 p =
      .ok (c.header p, c.hash (t - m)) := by
  have hw := h.write_top hpt.le hadj hmt.le
  rw [hw.getHeadAndTip_eq stage, if_neg (by split_ifs <;> omega), if_neg (by omega),
    show t + 1 - m - 1 = t - m by omega]

theorem execute_eq_stageProgress_error {input : ExecInput} (h : HeadersAt c g db p (p + 1) u)
    (hpu : p < u) (stage : HeaderStage) (hs : input.stageProgress = some p) :
    stage.execute db input = (db, .error (.stageProgress p)) := by
  have he := h.getHeadAndTip_eq stage
  rw [if_neg (by omega), if_pos rfl] at he
  exact HeaderStage.execute_of_getHeadAndTip_error stage hs h.updateHead_ok he

end HeadersAt

/-- On a stream that serves the chain in full, `execute` stopped right after any commit but the
last and called again returns the same success and leaves the same tables as one call that is
not stopped; stopped after the last commit, the call that follows fails with a stage progress
error, every header being committed and none of their total difficulties. -/
theorem execute_reentry {input : ExecInput} (h : HeadersAt c g db p l u) (stage : HeaderStage)
    (hd : c.ServesFully stage.downloader) (hcs : c.OnChain stage.consensus)
    (hs : input.stageProgress = some p) :
    (∀ j < (stage.streamedChunks db input).length,
      (∃ out, (stage.execute db input).2 = .ok out) ∧
        stage.execute (stage.interruptAfter db input j) input = stage.execute db input) ∧
    (0 < (stage.streamedChunks db input).length →
      (stage.execute (stage.interruptAfter db input (stage.streamedChunks db input).length)
        input).2 = .error (.stageProgress p)) := by
  have hk := stage.commitThreshold_pos
  rcases h.getHeadAndTip_chain stage hcs with ⟨-, -, he⟩ | ⟨t, ht, -, hadj⟩
  · simp [HeaderStage.streamedChunks_of_error hs h.updateHead_ok he]
  have hsc : stage.streamedChunks db input =
      (chunks stage.commitThreshold (c.descending t p)).map (List.map .ok) := by
    rw [HeaderStage.streamedChunks_of_headAndTip hs h.updateHead_ok ht, hd, Chain.header_number,
      chunks_map]
  have hlen : ∀ j, j < (stage.streamedChunks db input).length ↔
      j * stage.commitThreshold < t - p := fun j => by
    rw [hsc, List.length_map, lt_length_chunks hk, Chain.length_descending]
  rcases Nat.eq_zero_or_pos (stage.streamedChunks db input).length with h0 | h0
  · simp [h0]
  have hpt : p < t := by have := (hlen 0).1 h0; omega
  -- the call that is not stopped
  obtain ⟨cur, hst, hcur⟩ := HeaderStage.streamChunks_descending (c := c) hk db t p
  obtain ⟨td, hf, -⟩ := h.finish_descending hpt hadj
  have hfull : stage.execute db input =
      ({ (db.writeHeaders (c.descending t p)).1 with headerTD := td },
        .ok ⟨if u < l then t else u, true, true⟩) := by
    rw [HeaderStage.execute_of_headAndTip stage hs h.updateHead_ok ht, hd, Chain.header_number,
      chunks_map, hst, hf cur hcur]
  refine ⟨fun j hj => ⟨⟨_, by rw [hfull]⟩, ?_⟩, fun _ => ?_⟩
  · -- stopped after `j` commits, the call downloads the blocks below those committed
    have hjt := (hlen j).1 hj
    rw [HeaderStage.interruptAfter_chain hs hsc hjt.le]
    rcases Nat.eq_zero_or_pos j with rfl | hj0
    · rw [Nat.zero_mul]
      rfl
    have hm : 0 < j * stage.commitThreshold := Nat.mul_pos hj0 hk
    have hw := h.write_top hpt.le hadj hjt.le
    obtain ⟨cur', hst', hcur'⟩ := HeaderStage.streamChunks_descending (c := c) hk
      (db.writeHeaders ((topHeights t (j * stage.commitThreshold)).map c.header)).1
      (t - j * stage.commitThreshold) p
    rw [HeaderStage.execute_of_headAndTip stage hs hw.updateHead_ok
      (h.getHeadAndTip_top stage hpt hadj hm hjt), hd, Chain.header_number, chunks_map, hst',
      Tables.writeHeaders_top_descending db hjt.le, hfull, hf cur' (hcur'.trans (by omega))]
  · -- stopped after the last commit, the run just above the progress stops the call
    have hall : stage.interruptAfter db input (stage.streamedChunks db input).length =
        (db.writeHeaders (c.descending t p)).1 := by
      simp only [HeaderStage.interruptAfter, hs, Option.getD_some, List.take_length, hsc, hst]
    have hw := h.write_top hpt.le hadj le_rfl
    rw [show t + 1 - (t - p) = p + 1 by omega] at hw
    rw [hall, Chain.descending,
      hw.execute_eq_stageProgress_error (by split_ifs <;> omega) stage hs]

theorem execute_reentry_linear :
    (∀ j < (farStage.streamedChunks HeaderStage.genesisDb ⟨none, some 0⟩).length,
      (∃ out, (farStage.execute HeaderStage.genesisDb ⟨none, some 0⟩).2 = .ok out) ∧
        farStage.execute
            (farStage.interruptAfter HeaderStage.genesisDb ⟨none, some 0⟩ j)
            ⟨none, some 0⟩ =
          farStage.execute HeaderStage.genesisDb ⟨none, some 0⟩) ∧
    (0 < (farStage.streamedChunks HeaderStage.genesisDb ⟨none, some 0⟩).length →
      (farStage.execute
        (farStage.interruptAfter HeaderStage.genesisDb ⟨none, some 0⟩
          (farStage.streamedChunks HeaderStage.genesisDb ⟨none, some 0⟩).length)
        ⟨none, some 0⟩).2 = .error (.stageProgress 0)) :=
  execute_reentry genesisDb_headersAt farStage linearDownloader_servesFully
    (chainConsensus_onChain 3) rfl

/-- Stopped after its one commit, the call that downloads block 1 over the genesis block leaves
block 1 committed with no total difficulty, and the call that follows fails where the call that
was not stopped succeeds. -/
theorem execute_reentry_after_last_commit :
    ((linearStage 1 Nat.one_pos).streamedChunks HeaderStage.genesisDb
        ⟨none, some 0⟩).length = 1 ∧
      ((linearStage 1 Nat.one_pos).execute HeaderStage.genesisDb ⟨none, some 0⟩).2 =
        .ok ⟨1, true, true⟩ ∧
      ((linearStage 1 Nat.one_pos).execute
        ((linearStage 1 Nat.one_pos).interruptAfter HeaderStage.genesisDb ⟨none, some 0⟩ 1)
        ⟨none, some 0⟩).2 = .error (.stageProgress 0) :=
  ⟨rfl, rfl, rfl⟩

/-- A successful `execute` from tables on the chain, by a stage that serves it, reports `done` and
`reached_tip`, and progress above the one it started from. -/
theorem execute_ok_advances {input : ExecInput} (h : HeadersAt c g db p l u) (stage : HeaderStage)
    (hd : c.Serves stage.downloader) (hcs : c.OnChain stage.consensus)
    (hs : input.stageProgress = some p) (hok : (stage.execute db input).2 = .ok out) :
    p < out.stageProgress ∧ out.done = true ∧ out.reachedTip = true :=
  (h.execute stage hd hcs hs).2 out hok

theorem execute_ok_advances_linear :
    0 < 1 ∧ true = true ∧ true = true :=
  execute_ok_advances genesisDb_headersAt (linearStage 1 Nat.one_pos)
    linearDownloader_servesFully.serves linearConsensus_onChain
    (show (⟨none, some 0⟩ : ExecInput).stageProgress = some 0 from rfl)
    (show ((linearStage 1 Nat.one_pos).execute HeaderStage.genesisDb ⟨none, some 0⟩).2 =
      .ok ⟨1, true, true⟩ from rfl)

/-- Tables whose committed run starts just above the progress, left by a call that committed
every chunk and failed before its total difficulty pass, stop every later `execute` from that
progress, whatever its downloader and threshold: only an `unwind` lets the stage move again. -/
theorem execute_stuck {input : ExecInput} (h : HeadersAt c g db p (p + 1) u) (hpu : p < u)
    (stage : HeaderStage) (hs : input.stageProgress = some p) :
    stage.execute db input = (db, .error (.stageProgress p)) :=
  h.execute_eq_stageProgress_error hpu stage hs

theorem execute_stuck_linear :
    (linearStage 1 Nat.one_pos).execute
        (HeaderStage.genesisDb.writeHeaders [linearChain.header 1]).1 ⟨none, some 0⟩ =
      ((HeaderStage.genesisDb.writeHeaders [linearChain.header 1]).1, .error (.stageProgress 0)) :=
  execute_stuck (show HeadersAt linearChain 1
      (HeaderStage.genesisDb.writeHeaders [linearChain.header 1]).1 0 (0 + 1) 1 from
    genesisDb_headersAt.write_top (t := 1) (m := 1) (by decide) (.inl (by decide)) (by decide))
    (by decide) (linearStage 1 Nat.one_pos) rfl

/-- Served in full, `execute` from tables on the chain gives the same result and leaves the same
tables whatever its commit threshold. -/
theorem execute_commitThreshold_independent {input : ExecInput} (h : HeadersAt c g db p l u)
    (d : SealedHeader → H256 → List (Except DownloadError SealedHeader)) (consensus : Consensus)
    (hd : c.ServesFully d) (hcs : c.OnChain consensus) (hk₁ : 0 < k₁) (hk₂ : 0 < k₂)
    (hs : input.stageProgress = some p) :
    (HeaderStage.mk d consensus k₁ hk₁).execute db input =
      (HeaderStage.mk d consensus k₂ hk₂).execute db input := by
  rcases h.getHeadAndTip_chain ⟨d, consensus, k₁, hk₁⟩ hcs with
    ⟨-, -, he⟩ | ⟨t, ht, htp, hadj⟩
  · rw [HeaderStage.execute_of_getHeadAndTip_error _ hs h.updateHead_ok he,
      HeaderStage.execute_of_getHeadAndTip_error ⟨d, consensus, k₂, hk₂⟩ hs h.updateHead_ok
        he]
  rw [HeaderStage.execute_of_headAndTip _ hs h.updateHead_ok ht,
    HeaderStage.execute_of_headAndTip ⟨d, consensus, k₂, hk₂⟩ hs h.updateHead_ok ht]
  obtain ⟨cur₁, h₁, hc₁⟩ := HeaderStage.streamChunks_descending (c := c) hk₁ db t p
  obtain ⟨cur₂, h₂, hc₂⟩ := HeaderStage.streamChunks_descending (c := c) hk₂ db t p
  dsimp only
  rw [hd, Chain.header_number, chunks_map, chunks_map, h₁, h₂]
  rcases Nat.lt_or_gt_of_ne htp with htp | htp
  · obtain ⟨e, hf⟩ := h.finish_below htp hadj
    rw [hf cur₁, hf cur₂]
  · obtain ⟨td, hf, -⟩ := h.finish_descending htp hadj
    rw [hf cur₁ hc₁, hf cur₂ hc₂]

theorem execute_commitThreshold_independent_linear :
    (HeaderStage.mk linearDownloader (chainConsensus 3) 1 Nat.one_pos).execute
        HeaderStage.genesisDb ⟨none, some 0⟩ =
      (HeaderStage.mk linearDownloader (chainConsensus 3) 2 Nat.two_pos).execute
        HeaderStage.genesisDb ⟨none, some 0⟩ :=
  execute_commitThreshold_independent genesisDb_headersAt linearDownloader (chainConsensus 3)
    linearDownloader_servesFully (chainConsensus_onChain 3) Nat.one_pos Nat.two_pos rfl

end Reth
