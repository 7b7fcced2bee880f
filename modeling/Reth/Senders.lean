import Reth.Stage

namespace Reth
set_option autoImplicit true

/-- `SendersStage`. The batch size is positive: `chunks` panics on zero. -/
structure SendersStage where
  batchSize : Nat
  commitThreshold : Nat
  batchSize_pos : 0 < batchSize

/-- `u64` addition as a release build computes it: the sum wraps (a debug build panics). -/
def addU64 (a b : Nat) : Nat := (a + b) % 2 ^ 64

/-- `tx_cursor.walk(start)` on `Transactions`: each row from `start` on, or the decoding error of
a row whose bytes do not decode. -/
def Tables.walkTransactions (db : Tables) (start : Nat) :
    List (Except DbError (Nat × TransactionSigned)) :=
  (db.transactions.walk start).map fun r =>
    match r.2 with
    | some transaction => .ok (r.1, transaction)
    | none => .error .decode

namespace SendersStage

/-- The `take_while` predicate: an entry up to `end_tx_index`. An error reads as `false`
(`unwrap_or_default`), so it ends the walk. -/
def inRange (endTxIndex : Nat) : Except DbError (Nat × TransactionSigned) → Bool
  | .ok (k, _) => k ≤ endTxIndex
  | .error _ => false

/-- The parallel `recover_signer` map of one chunk, collected into a `Result`. -/
def recoverSigners (transactions : List (Nat × TransactionSigned)) :
    Except StageError (List (Nat × Address)) :=
  transactions.mapM fun (id, transaction) =>
    match transaction.recoverSigner with
    | some signer => .ok (id, signer)
    | none => .error (.fatal (.senderRecovery id))

/-- `senders_cursor.append` of each recovered pair, in order. -/
def appendSenders (senders : Table Nat Address) (recovered : List (Nat × Address)) :
    Except StageError (Table Nat Address) :=
  recovered.foldlM (fun t (id, sender) => (t.append id sender).mapError .database) senders

/-- One iteration of the chunk loop: collect the chunk, recover its signers, append them. -/
def appendChunk (senders : Table Nat Address)
    (chunk : List (Except DbError (Nat × TransactionSigned))) :
    Except StageError (Table Nat Address) := do
  let transactions ← (collect chunk).mapError .database
  let recovered ← recoverSigners transactions
  appendSenders senders recovered

/-- `SendersStage::execute`: the output and the tables it leaves for the pipeline to commit. An
error drops the transaction, and with it every write. Of the store's failures only a
`Transactions` row that does not decode is modelled; a failed body read, cursor or walk, which the
source passes on with `?`, is not. -/
def execute (stage : SendersStage) (db : Tables) (input : ExecInput) :
    Except StageError (ExecOutput × Tables) := do
  let stageProgress := input.stageProgress.getD 0
  let previousStageProgress := input.previousStageProgress
  let maxBlockNum := min previousStageProgress (addU64 stageProgress stage.commitThreshold)
  if maxBlockNum ≤ stageProgress then
    return ({ stageProgress, reachedTip := true, done := true }, db)
  let startTxIndex := (← db.getBlockBodyByNum (stageProgress + 1)).startTxId
  let endTxIndex := (← db.getBlockBodyByNum maxBlockNum).lastTxIndex
  if startTxIndex > endTxIndex then
    return ({ stageProgress := maxBlockNum, done := true, reachedTip := true }, db)
  let entries := (db.walkTransactions startTxIndex).takeWhile (inRange endTxIndex)
  let txSenders ← (chunks stage.batchSize entries).foldlM appendChunk db.txSenders
  let done := decide (maxBlockNum ≥ previousStageProgress)
  return ({ stageProgress := maxBlockNum, done, reachedTip := done }, { db with txSenders })

/-- `SendersStage::unwind`: drop every `TxSenders` row above the last transaction index of the
block unwound to. -/
def unwind (db : Tables) (input : UnwindInput) : Except StageError (UnwindOutput × Tables) := do
  let latestTxId := (← db.getBlockBodyByNum input.unwindTo).lastTxIndex
  return ({ stageProgress := input.unwindTo },
    { db with txSenders := db.txSenders.unwindByNum latestTxId })

end SendersStage

end Reth
