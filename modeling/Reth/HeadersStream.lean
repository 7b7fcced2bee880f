import Reth.HeadersWrite
import Mathlib.Data.List.Chain

namespace Reth
set_option autoImplicit true

/-- The link `ensure_parent` checks: `parent` is the block below `header`, and its hash is the
parent hash `header` names. -/
def Linked (header parent : SealedHeader) : Prop :=
  parent.hash = header.parentHash ∧ parent.number + 1 = header.number

instance : DecidableRel Linked := fun _ _ => inferInstanceAs (Decidable (_ ∧ _))

theorem ensureParent_eq_ok : ensureParent header parent = .ok () ↔ Linked header parent := by
  unfold ensureParent Linked
  split_ifs with h <;> simp [h]

theorem validateHeaderResponse_eq_ok :
    ∀ hs : List SealedHeader, validateHeaderResponse hs = .ok () ↔ hs.Chain' Linked
  | [] | [_] => by simp [validateHeaderResponse, List.chain'_singleton]
  | header :: parent :: rest => by
    rw [validateHeaderResponse, List.chain'_cons, ← validateHeaderResponse_eq_ok (parent :: rest),
      ← ensureParent_eq_ok]
    cases ensureParent header parent <;> simp [Except.mapError]

theorem validateHeaderResponse_error :
    ∀ hs : List SealedHeader, validateHeaderResponse hs = .error e → ∃ err, e = .download err
  | [] | [_] => by simp [validateHeaderResponse]
  | header :: parent :: rest => by
    rw [validateHeaderResponse]
    cases h : ensureParent header parent with
    | error err =>
      simp only [Except.mapError, except_error_bind, Except.error.injEq]
      exact fun h => ⟨err, h.symm⟩
    | ok u => simpa [Except.mapError] using validateHeaderResponse_error (parent :: rest)

namespace HeaderStage

theorem streamChunks_cons_of_valid (hv : validateHeaderResponse res = .ok ()) :
    streamChunks sp db cur (res.map .ok :: rest) =
      streamChunks sp (db.writeHeaders res).1 (max cur ((db.writeHeaders res).2.getD 0)) rest := by
  simp only [streamChunks, collect_map_ok, hv]

theorem streamChunks_cons_of_error (h : collect headers = .error e) :
    streamChunks sp db cur (headers :: rest) = (db, .error (downloadError sp e)) := by
  simp only [streamChunks, h]

theorem streamChunks_cons_of_invalid (hv : validateHeaderResponse res = .error e) :
    streamChunks sp db cur (res.map .ok :: rest) = (db, .error e) := by
  simp only [streamChunks, collect_map_ok, hv]

theorem streamChunks_append_valid (sp : Nat) (good : List (List SealedHeader))
    (rest : List (List (Except DownloadError SealedHeader)))
    (hgood : ∀ c ∈ good, validateHeaderResponse c = .ok ()) (db : Tables) (cur : Nat) :
    ∃ cur', streamChunks sp db cur (good.map (List.map .ok) ++ rest) =
      streamChunks sp (db.writeChunks good) cur' rest ∧
      ∀ B, (∀ c ∈ good, ∀ h ∈ c, h.number ≤ B) → cur' ≤ max cur B := by
  induction good generalizing db cur with
  | nil => exact ⟨cur, rfl, fun _ _ => le_max_left _ _⟩
  | cons c good ih =>
    rw [List.map_cons, List.cons_append,
      streamChunks_cons_of_valid (hgood c (List.mem_cons_self _ _))]
    obtain ⟨cur', he, hb⟩ := ih (fun c hc => hgood c (List.mem_cons_of_mem _ hc)) _ _
    refine ⟨cur', he, fun B hB =>
      (hb B fun c' hc' => hB c' (List.mem_cons_of_mem _ hc')).trans ?_⟩
    have hlatest : ((db.writeHeaders c).2.getD 0) ≤ B := by
      rw [Tables.writeHeaders_latest]
      cases hf : c.find? (·.number ≠ 0) with
      | none => exact Nat.zero_le _
      | some h => exact hB c (List.mem_cons_self _ _) h (List.mem_of_find?_eq_some hf)
    omega

theorem streamChunks_headers (sp : Nat) (cs : List (List SealedHeader)) (db : Tables) (cur : Nat) :
    ((∃ err, (streamChunks sp db cur (cs.map (List.map .ok))).2 = .error (.download err)) ↔
      ∃ c ∈ cs, ¬ c.Chain' Linked) ∧
    ((∀ c ∈ cs, c.Chain' Linked) →
      ∃ db' cur', streamChunks sp db cur (cs.map (List.map .ok)) = (db', .ok cur')) := by
  induction cs generalizing db cur with
  | nil => simp [streamChunks]
  | cons c cs ih =>
    rw [List.map_cons]
    by_cases hc : c.Chain' Linked
    · rw [streamChunks_cons_of_valid ((validateHeaderResponse_eq_ok c).2 hc)]
      simpa [hc] using ih _ _
    · cases hv : validateHeaderResponse c with
      | ok u => exact absurd ((validateHeaderResponse_eq_ok c).1 hv) hc
      | error e =>
        obtain ⟨err, rfl⟩ := validateHeaderResponse_error c hv
        rw [streamChunks_cons_of_invalid hv]
        exact ⟨⟨fun _ => ⟨c, List.mem_cons_self _ _, hc⟩, fun _ => ⟨err, rfl⟩⟩,
          fun h => absurd (h c (List.mem_cons_self _ _)) hc⟩

theorem appendTd_error (h : appendTd acc entry = .error e) : e = .database .write := by
  rcases except_bind_eq_error.1 h with h | ⟨t, -, h⟩
  · cases ha : acc.2.append entry.1 (acc.1 + entry.2.difficulty) with
    | error e' =>
      simp only [ha, Except.mapError, Except.error.injEq] at h
      rw [← h, Table.append_error_write ha]
    | ok t => simp [ha, Except.mapError] at h
  · cases h

theorem writeTd_error (h : writeTd db head = .error e) :
    (∃ d, e = .databaseIntegrity d) ∨ e = .database .write := by
  rcases except_bind_eq_error.1 h with h | ⟨td, -, h⟩
  · cases hg : db.headerTD.get head.numHash <;> simp [hg] at h; exact .inl ⟨_, h.symm⟩
  rcases except_bind_eq_error.1 h with h | ⟨key, -, h⟩
  · unfold Tables.getBlockNumhash Tables.getBlockHash at h
    split at h <;> cases h; exact .inl ⟨_, rfl⟩
  rcases except_bind_eq_error.1 h with h | ⟨r, -, h⟩
  · exact .inr (foldlM_error (P := (· = .database .write)) (fun _ _ _ _ h => appendTd_error h) h)
  · cases h

theorem execute_of_headAndTip (stage : HeaderStage) (hs : input.stageProgress = some s)
    (hu : updateHead db s = .ok ()) (ht : stage.getHeadAndTip db s = .ok (head, tip)) :
    stage.execute db input =
      finish head
        (streamChunks s db s (chunks stage.commitThreshold (stage.downloader head tip))) := by
  simp only [execute, hs, Option.getD_some, hu, ht, except_ok_bind]

theorem execute_of_getHeadAndTip_error (stage : HeaderStage) (hs : input.stageProgress = some s)
    (hu : updateHead db s = .ok ()) (ht : stage.getHeadAndTip db s = .error e) :
    stage.execute db input = (db, .error e) := by
  simp only [execute, hs, Option.getD_some, hu, ht, except_ok_bind]

theorem finish_of_error {p : Tables × Except StageError Nat} (h : p.2 = .error e) :
    finish head p = (p.1, .error e) := by
  obtain ⟨db, r⟩ := p
  subst h
  rfl

theorem finish_of_writeTd_ok (h : writeTd db head = .ok db') : finish head (db, .ok cur) =
    (db', .ok ⟨max cur ((db'.canonicalHeaders.last.map (·.1)).getD 0), true, true⟩) := by
  simp only [finish, h]

theorem finish_of_writeTd_error (h : writeTd db head = .error e) :
    finish head (db, .ok cur) = (db, .error e) := by
  simp only [finish, h]

theorem writeTd_of_canonical_none (h : db.canonicalHeaders.get (head.number + 1) = none) :
    ∃ e, writeTd db head = .error e := by
  unfold writeTd
  cases db.headerTD.get head.numHash with
  | none => exact ⟨_, rfl⟩
  | some td =>
    simp only [okOr_some, except_ok_bind, Tables.getBlockNumhash, Tables.getBlockHash, h]
    exact ⟨_, rfl⟩

theorem writeTd_of_finish (h : (finish head (db, .ok cur)).2 = .error e) :
    writeTd db head = .error e := by
  unfold finish at h
  cases hw : writeTd db head <;> simp_all

/-- A consensus client that publishes, for any head, the hash one above it. -/
def succConsensus : Consensus :=
  ⟨fun head => ⟨head + 1⟩, fun _ => Nat.succ_ne_zero _, fun _ => Nat.succ_ne_self _⟩

/-- A stage whose downloader yields `items` for every request. -/
def fixedStage (items : List (Except DownloadError SealedHeader)) (k : Nat) (hk : 0 < k) :
    HeaderStage :=
  ⟨fun _ _ => items, succConsensus, k, hk⟩

def genesisHeader : SealedHeader := ⟨⟨0, 0, 1⟩, 100⟩

/-- Block 1, a child of `genesisHeader`. -/
def childHeader : SealedHeader := ⟨⟨100, 1, 1⟩, 101⟩

/-- A block 2 whose parent hash is not that of `childHeader`. -/
def strayHeader : SealedHeader := ⟨⟨999, 2, 1⟩, 102⟩

/-- The genesis block alone, with total difficulty 1. -/
def genesisDb : Tables where
  canonicalHeaders := ⟨[(0, 100)], by decide⟩
  headerNumbers := ⟨[(100, 0)], by decide⟩
  headers := ⟨[(⟨0, 100⟩, genesisHeader.header)], by decide⟩
  headerTD := ⟨[(⟨0, 100⟩, 1)], by decide⟩
  blockBodies := .empty
  transactions := .empty
  txSenders := .empty

/-- The downloader yields block 1, then times out. -/
def timeoutStage : HeaderStage := fixedStage [.ok childHeader, .error .timeout] 1 Nat.one_pos

theorem streamChunks_of_unlinked (sp : Nat) (db : Tables) (cur : Nat)
    (rest : List (List (Except DownloadError SealedHeader)))
    (hbad : ∀ res, collect bad = .ok res → ¬ res.Chain' Linked) :
    ∃ e, streamChunks sp db cur (bad :: rest) = (db, .error e) ∧
      (∀ (pre : List SealedHeader) e' post, bad = pre.map .ok ++ .error e' :: post →
        e = downloadError sp e') ∧
      (∀ res : List SealedHeader, bad = res.map .ok → ∃ err, e = .download err) := by
  cases hb : collect bad with
  | error e =>
    refine ⟨_, streamChunks_cons_of_error hb, fun pre e' post he => ?_, fun res hr => ?_⟩
    · rw [he, collect_append_error] at hb
      cases hb
      rfl
    · rw [hr, collect_map_ok] at hb
      cases hb
  | ok res =>
    cases hv : validateHeaderResponse res with
    | ok u => exact absurd ((validateHeaderResponse_eq_ok res).1 hv) (hbad res hb)
    | error e =>
      obtain ⟨err, rfl⟩ := validateHeaderResponse_error res hv
      refine ⟨_, by simp only [streamChunks, hb, hv], fun pre e' post he => ?_, fun _ _ => ⟨err, rfl⟩⟩
      rw [he, collect_append_error] at hb
      cases hb

/-- The `j + 1`-th chunk of the stream is the first that holds an error item or is not linked
throughout: `execute` fails, and leaves in `CanonicalHeaders`, `Headers` and `HeaderNumbers`
exactly the rows they held plus the non-genesis headers of the `j` chunks before it (a later
chunk's header over an earlier one's), with `HeaderTD` and every other table untouched. An error
item ends the call as recoverable, or as a validation error at the stage progress when it reports
a header the downloader rejected; a chunk of headers that is not linked ends it as a download
error. -/
theorem execute_error_keeps_earlier_chunks (stage : HeaderStage) {good : List (List SealedHeader)}
    (hs : input.stageProgress = some s) (hu : updateHead db s = .ok ())
    (ht : stage.getHeadAndTip db s = .ok (head, tip))
    (hcs : chunks stage.commitThreshold (stage.downloader head tip) =
      good.map (List.map .ok) ++ bad :: rest)
    (hgood : ∀ c ∈ good, c.Chain' Linked)
    (hbad : ∀ res, collect bad = .ok res → ¬ res.Chain' Linked) :
    ((∀ n, (stage.execute db input).1.canonicalHeaders.get n =
        if n = 0 then db.canonicalHeaders.get n
        else ((good.reverse.flatten.find? (·.number = n)).map (·.hash)).or
          (db.canonicalHeaders.get n)) ∧
      (∀ k, (stage.execute db input).1.headers.get k =
        if k.number = 0 then db.headers.get k
        else ((good.reverse.flatten.find? (·.numHash = k)).map (·.header)).or (db.headers.get k)) ∧
      (∀ x, (stage.execute db input).1.headerNumbers.get x =
        ((good.reverse.flatten.find? fun h => h.hash = x ∧ h.number ≠ 0).map (·.number)).or
          (db.headerNumbers.get x)) ∧
      (stage.execute db input).1.headerTD = db.headerTD ∧
      (stage.execute db input).1.blockBodies = db.blockBodies ∧
      (stage.execute db input).1.transactions = db.transactions ∧
      (stage.execute db input).1.txSenders = db.txSenders) ∧
    (∀ (pre : List SealedHeader) e post, bad = pre.map .ok ++ .error e :: post →
      (∀ hash error, e = .headerValidation hash error →
        (stage.execute db input).2 = .error (.validation s error)) ∧
      ((∀ hash error, e ≠ .headerValidation hash error) →
        (stage.execute db input).2 = .error (.recoverable e))) ∧
    (∀ res : List SealedHeader, bad = res.map .ok →
      ∃ err, (stage.execute db input).2 = .error (.download err)) := by
  obtain ⟨cur, hloop, -⟩ := streamChunks_append_valid s good (bad :: rest)
    (fun c hc => (validateHeaderResponse_eq_ok c).2 (hgood c hc)) db s
  obtain ⟨e, hbe, hitem, hunlinked⟩ := streamChunks_of_unlinked s (db.writeChunks good) cur rest hbad
  obtain ⟨htd, hbodies, htx, hsenders⟩ := db.writeHeaders_frame good.reverse.flatten
  rw [execute_of_headAndTip stage hs hu ht, hcs, hloop, hbe, finish_of_error rfl]
  refine ⟨?_, fun pre e' post he => ?_, fun res hr => (hunlinked res hr).imp fun _ => congrArg _⟩
  · rw [Tables.writeChunks_eq]
    exact ⟨db.writeHeaders_canonicalHeaders_get _, db.writeHeaders_headers_get _,
      db.writeHeaders_headerNumbers_get _, htd, hbodies, htx, hsenders⟩
  rw [hitem pre e' post he]
  refine ⟨by rintro hash error rfl; rfl, fun hne => ?_⟩
  cases e' <;> first | rfl | exact absurd rfl (hne _ _)

theorem execute_error_keeps_earlier_chunks_timeout :
    ((∀ n, (timeoutStage.execute genesisDb ⟨none, some 0⟩).1.canonicalHeaders.get n =
        if n = 0 then genesisDb.canonicalHeaders.get n
        else (([[childHeader]].reverse.flatten.find? (·.number = n)).map (·.hash)).or
          (genesisDb.canonicalHeaders.get n)) ∧
      (∀ k, (timeoutStage.execute genesisDb ⟨none, some 0⟩).1.headers.get k =
        if k.number = 0 then genesisDb.headers.get k
        else (([[childHeader]].reverse.flatten.find? (·.numHash = k)).map (·.header)).or
          (genesisDb.headers.get k)) ∧
      (∀ x, (timeoutStage.execute genesisDb ⟨none, some 0⟩).1.headerNumbers.get x =
        (([[childHeader]].reverse.flatten.find? fun h => h.hash = x ∧ h.number ≠ 0).map
          (·.number)).or (genesisDb.headerNumbers.get x)) ∧
      (timeoutStage.execute genesisDb ⟨none, some 0⟩).1.headerTD = genesisDb.headerTD ∧
      (timeoutStage.execute genesisDb ⟨none, some 0⟩).1.blockBodies = genesisDb.blockBodies ∧
      (timeoutStage.execute genesisDb ⟨none, some 0⟩).1.transactions = genesisDb.transactions ∧
      (timeoutStage.execute genesisDb ⟨none, some 0⟩).1.txSenders = genesisDb.txSenders) ∧
    (∀ (pre : List SealedHeader) e post,
      ([.error .timeout] : List (Except DownloadError SealedHeader)) =
        pre.map .ok ++ .error e :: post →
      (∀ hash error, e = .headerValidation hash error →
        (timeoutStage.execute genesisDb ⟨none, some 0⟩).2 = .error (.validation 0 error)) ∧
      ((∀ hash error, e ≠ .headerValidation hash error) →
        (timeoutStage.execute genesisDb ⟨none, some 0⟩).2 = .error (.recoverable e))) ∧
    (∀ res : List SealedHeader,
      ([.error .timeout] : List (Except DownloadError SealedHeader)) = res.map .ok →
      ∃ err, (timeoutStage.execute genesisDb ⟨none, some 0⟩).2 = .error (.download err)) :=
  HeaderStage.execute_error_keeps_earlier_chunks timeoutStage rfl
    (show updateHead genesisDb 0 = .ok () from rfl)
    (show timeoutStage.getHeadAndTip genesisDb 0 = .ok (genesisHeader, 101) from rfl) rfl
    (by simp [List.chain'_singleton])
    fun res h => by cases h.symm.trans (collect_append_error [] DownloadError.timeout [])

/-- The downloader yields `strayHeader`, then `childHeader`. -/
def strayStage (k : Nat) (hk : 0 < k) : HeaderStage :=
  fixedStage [.ok strayHeader, .ok childHeader] k hk

/-- On a stream of headers alone, `execute` fails with a download error exactly when some chunk
of `commit_threshold` consecutive headers holds a pair that is not linked: a pair across two
chunks is never compared. -/
theorem execute_download_error_iff (stage : HeaderStage) (hs : input.stageProgress = some s)
    (hu : updateHead db s = .ok ()) (ht : stage.getHeadAndTip db s = .ok (head, tip))
    (hall : stage.downloader head tip = hdrs.map .ok) :
    (∃ err, (stage.execute db input).2 = .error (.download err)) ↔
      ∃ c ∈ chunks stage.commitThreshold hdrs, ¬ c.Chain' Linked := by
  rw [execute_of_headAndTip stage hs hu ht, hall, chunks_map]
  obtain ⟨hiff, hok⟩ := streamChunks_headers s (chunks stage.commitThreshold hdrs) db s
  by_cases hl : ∀ c ∈ chunks stage.commitThreshold hdrs, c.Chain' Linked
  · obtain ⟨db', cur', he⟩ := hok hl
    rw [he]
    refine ⟨fun ⟨err, h⟩ => ?_, fun ⟨c, hc, hn⟩ => absurd (hl c hc) hn⟩
    rcases writeTd_error (writeTd_of_finish h) with ⟨d, hd⟩ | hd <;> cases hd
  · push_neg at hl
    obtain ⟨err, he⟩ := hiff.2 hl
    exact ⟨fun _ => hl, fun _ => ⟨err, by rw [finish_of_error he]⟩⟩

theorem execute_download_error_iff_stray :
    (∃ err, ((strayStage 2 Nat.two_pos).execute genesisDb ⟨none, some 0⟩).2 =
      .error (.download err)) ↔
      ∃ c ∈ chunks 2 [strayHeader, childHeader], ¬ c.Chain' Linked :=
  execute_download_error_iff (strayStage 2 Nat.two_pos) rfl
    (show updateHead genesisDb 0 = .ok () from rfl)
    (show (strayStage 2 Nat.two_pos).getHeadAndTip genesisDb 0 = .ok (genesisHeader, 101) from rfl)
    rfl

/-- The broken link from block 2 to block 1 is never compared when the two headers fall in
different chunks: with one header a chunk `execute` succeeds, with two it fails. -/
theorem execute_accepts_mislink_across_chunks :
    ¬ Linked strayHeader childHeader ∧
      ((strayStage 1 Nat.one_pos).execute genesisDb ⟨none, some 0⟩).2 =
        .ok ⟨2, true, true⟩ ∧
      ((strayStage 2 Nat.two_pos).execute genesisDb ⟨none, some 0⟩).2 =
        .error (.download (.mismatchedHeaders 2 102 1 101)) :=
  ⟨by decide, rfl, rfl⟩

end HeaderStage

end Reth
