import Reth.Stage

namespace Reth
set_option autoImplicit true

/-- Modelled from the spec: the forkchoice state the consensus client publishes; the stage reads
only its head. -/
structure ForkchoiceState where
  headBlockHash : H256
  deriving DecidableEq, Repr

/-- The consensus client as `next_fork_choice_state` sees it: for a head, the forkchoice state the
loop returns, the first one published whose head hash is set and differs from the head. -/
structure Consensus where
  nextForkChoiceState : H256 → ForkchoiceState
  headBlockHash_ne_zero : ∀ head, (nextForkChoiceState head).headBlockHash ≠ 0
  headBlockHash_ne : ∀ head, (nextForkChoiceState head).headBlockHash ≠ head

/-- `HeaderStage`: the downloader's stream for a `(head, tip)` request, the consensus client and
the commit threshold. `chunks` panics on a zero threshold, which the stage rules out. -/
structure HeaderStage where
  downloader : SealedHeader → H256 → List (Except DownloadError SealedHeader)
  consensus : Consensus
  commitThreshold : Nat
  commitThreshold_pos : 0 < commitThreshold

/-- Modelled from the spec: `ensure_parent`, the child's parent hash is the parent's hash and its
number is one above the parent's. -/
def ensureParent (header parent : SealedHeader) : Except DownloadError Unit :=
  if parent.hash = header.parentHash ∧ parent.number + 1 = header.number then pure ()
  else .error (.mismatchedHeaders header.number header.hash parent.number parent.hash)

/-- `HeaderStage::validate_header_response`: every header against the next one, its parent in
the descending response. -/
def validateHeaderResponse : List SealedHeader → Except StageError Unit
  | header :: parent :: rest => do
    (ensureParent header parent).mapError .download
    validateHeaderResponse (parent :: rest)
  | _ => pure ()

/-- The three `put`/`insert` writes of one header in `write_headers`. -/
def Tables.writeHeader (db : Tables) (header : SealedHeader) : Tables :=
  { db with
    headerNumbers := db.headerNumbers.put header.hash header.number
    headers := db.headers.put header.numHash header.header
    canonicalHeaders := db.canonicalHeaders.put header.number header.hash }

/-- `HeaderStage::write_headers`: the headers in ascending order, genesis skipped, and the number
of the last one written. -/
def Tables.writeHeaders (db : Tables) (headers : List SealedHeader) : Tables × Option Nat :=
  headers.reverse.foldl (fun (db, latest) header =>
    if header.number = 0 then (db, latest) else (db.writeHeader header, some header.number))
    (db, none)

namespace HeaderStage

/-- `HeaderStage::update_head`: the head's total difficulty must be stored (the status it is
sent with is not modelled). -/
def updateHead (db : Tables) (height : Nat) : Except StageError Unit := do
  let blockKey ← db.getBlockNumhash height
  let _ ← okOr (db.headerTD.get blockKey) (.databaseIntegrity (.totalDifficulty height))
  pure ()

/-- `HeaderStage::get_head_and_tip`: the stored head, and the tip to download down from. -/
def getHeadAndTip (stage : HeaderStage) (db : Tables) (stageProgress : Nat) :
    Except StageError (SealedHeader × H256) := do
  let headHash ← okOr (db.canonicalHeaders.get stageProgress)
    (.databaseIntegrity (.canonicalHeader stageProgress))
  let header ← okOr (db.headers.get ⟨stageProgress, headHash⟩)
    (.databaseIntegrity (.header stageProgress headHash))
  let head := SealedHeader.mk header headHash
  let nextHeader ← (db.canonicalHeaders.next stageProgress).mapM fun next =>
    okOr (db.headers.get ⟨next.1, next.2⟩) (.databaseIntegrity (.header next.1 next.2))
  match nextHeader with
  | some header =>
    if stageProgress + 1 ≠ header.number then pure (head, header.parentHash)
    else .error (.stageProgress stageProgress)
  | none => pure (head, (stage.consensus.nextForkChoiceState head.hash).headBlockHash)

/-- The error a chunk's first failed item ends `execute` with. -/
def downloadError (stageProgress : Nat) : DownloadError → StageError
  | .timeout => .recoverable .timeout
  | .headerValidation _ error => .validation stageProgress error
  | error => .recoverable error

/-- The stream loop of `execute`: each chunk is collected, validated, written and committed. The
tables are the committed ones, and an error leaves those of the chunks before it. -/
def streamChunks (stageProgress : Nat) (db : Tables) (currentProgress : Nat) :
    List (List (Except DownloadError SealedHeader)) → Tables × Except StageError Nat
  | [] => (db, .ok currentProgress)
  | headers :: rest =>
    match collect headers with
    | .error e => (db, .error (downloadError stageProgress e))
    | .ok res =>
      match validateHeaderResponse res with
      | .error e => (db, .error e)
      | .ok () =>
        let (db', writeProgress) := db.writeHeaders res
        streamChunks stageProgress db' (max currentProgress (writeProgress.getD 0)) rest

/-- One step of the `write_td` walk: add the header's difficulty to the running total and append
it under the header's key. -/
def appendTd (acc : Nat × Table BlockNumHash Nat) (entry : BlockNumHash × Header) :
    Except StageError (Nat × Table BlockNumHash Nat) := do
  let td := acc.1 + entry.2.difficulty
  let cursorTd ← (acc.2.append entry.1 td).mapError .database
  pure (td, cursorTd)

/-- `HeaderStage::write_td`: from the head's total difficulty, walk `Headers` from the block above
the head to the end and append each running total to `HeaderTD`. -/
def writeTd (db : Tables) (head : SealedHeader) : Except StageError Tables := do
  let td ← okOr (db.headerTD.get head.numHash) (.databaseIntegrity (.totalDifficulty head.number))
  let startKey ← db.getBlockNumhash (head.number + 1)
  let acc ← (db.headers.walk startKey).foldlM appendTd (td, db.headerTD)
  pure { db with headerTD := acc.2 }

/-- The end of `execute`, after the stream loop: the total difficulty pass, then the progress,
the highest of the loop's and the last canonical block's. -/
def finish (head : SealedHeader) :
    Tables × Except StageError Nat → Tables × Except StageError ExecOutput
  | (db, .error e) => (db, .error e)
  | (db, .ok currentProgress) =>
    match writeTd db head with
    | .error e => (db, .error e)
    | .ok db =>
      let stageProgress := max currentProgress ((db.canonicalHeaders.last.map (·.1)).getD 0)
      (db, .ok { stageProgress, reachedTip := true, done := true })

/-- `HeaderStage::execute`: the tables left committed, and the result. Each chunk is committed
as it is written; an error rolls back the open transaction, so the total difficulty pass is kept
only when the call succeeds and the pipeline commits it. The store itself never fails here: a
failed commit, cursor or read, which the source passes on with `?` as a database error, is not
modelled. -/
def execute (stage : HeaderStage) (db : Tables) (input : ExecInput) :
    Tables × Except StageError ExecOutput :=
  let stageProgress := input.stageProgress.getD 0
  match updateHead db stageProgress >>= fun () => stage.getHeadAndTip db stageProgress with
  | .error e => (db, .error e)
  | .ok (head, tip) =>
    finish head (streamChunks stageProgress db stageProgress
      (chunks stage.commitThreshold (stage.downloader head tip)))

/-- `HeaderStage::unwind`: drop the `HeaderNumbers` rows of the canonical hashes above the block
unwound to, then every row above it of the other three tables. -/
def unwind (db : Tables) (input : UnwindInput) : UnwindOutput × Tables :=
  (⟨input.unwindTo⟩,
    { db with
      headerNumbers := db.canonicalHeaders.unwindByWalker db.headerNumbers (input.unwindTo + 1)
      canonicalHeaders := db.canonicalHeaders.unwindByNum input.unwindTo
      headers := db.headers.unwindByNumHash input.unwindTo
      headerTD := db.headerTD.unwindByNumHash input.unwindTo })

end HeaderStage

end Reth
