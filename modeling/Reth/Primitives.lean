import Mathlib.Data.Prod.Lex
import Mathlib.Order.Basic
import Mathlib.Algebra.Group.Nat.Basic

namespace Reth
set_option autoImplicit true

/-- Modelled from the spec: the store's errors a stage can see, a write the engine refuses
(an out-of-order `append`) and a row whose bytes do not decode. -/
inductive DbError
  | write
  | decode
  deriving DecidableEq, Repr

abbrev H256 := Nat
abbrev Address := Nat

/-- Modelled from the spec: the composite `(number, hash)` key, ordered by number first and by
hash within a number. -/
structure BlockNumHash where
  number : Nat
  hash : H256
  deriving Repr

def BlockNumHash.lex (k : BlockNumHash) : Nat ×ₗ Nat := toLex (k.number, k.hash)

theorem BlockNumHash.lex_injective : Function.Injective BlockNumHash.lex := by
  rintro ⟨a, b⟩ ⟨c, d⟩ h
  simp only [BlockNumHash.lex, toLex_inj, Prod.mk.injEq] at h
  simp [h]

instance : LinearOrder BlockNumHash := LinearOrder.lift' _ BlockNumHash.lex_injective

theorem BlockNumHash.lt_iff {a b : BlockNumHash} :
    a < b ↔ a.number < b.number ∨ a.number = b.number ∧ a.hash < b.hash :=
  Prod.Lex.lt_iff _ _

theorem BlockNumHash.le_iff {a b : BlockNumHash} :
    a ≤ b ↔ a.number < b.number ∨ a.number = b.number ∧ a.hash ≤ b.hash :=
  Prod.Lex.le_iff _ _

/-- Modelled from the spec: the header fields the stages read. -/
structure Header where
  parentHash : H256
  number : Nat
  difficulty : Nat
  deriving DecidableEq, Repr

/-- Modelled from the spec: a header together with its hash. -/
structure SealedHeader where
  header : Header
  hash : H256
  deriving DecidableEq, Repr

namespace SealedHeader

def number (h : SealedHeader) : Nat := h.header.number

def parentHash (h : SealedHeader) : H256 := h.header.parentHash

def numHash (h : SealedHeader) : BlockNumHash := ⟨h.number, h.hash⟩

end SealedHeader

/-- Modelled from the spec: a block body's place in the flat transaction log. -/
structure StoredBlockBody where
  startTxId : Nat
  txCount : Nat
  deriving DecidableEq, Repr

/-- Modelled from the spec: the index of the body's last transaction, `start_tx_id + tx_count - 1`
in saturating `u64` arithmetic, so an empty body at index 0 gives 0. -/
def StoredBlockBody.lastTxIndex (b : StoredBlockBody) : Nat := b.startTxId + b.txCount - 1

/-- Modelled from the spec: a signed transaction, represented by what `recover_signer` gets back
from its signature (`none` when recovery fails). -/
structure TransactionSigned where
  recoverSigner : Option Address
  deriving DecidableEq, Repr

/-- `RequestError`: what a request to a peer can fail with. -/
inductive RequestError
  | channelClosed
  | notConnected
  | connectionDropped
  | unsupportedCapability
  | timeout
  | badResponse
  deriving DecidableEq, Repr

/-- Modelled from the spec: the consensus rule a header failed, carried by validation errors. -/
structure ConsensusError where
  rule : Nat
  deriving DecidableEq, Repr

/-- Modelled from the spec: what the header downloader's stream can yield instead of a header. -/
inductive DownloadError
  | headerValidation (hash : H256) (error : ConsensusError)
  | timeout
  | mismatchedHeaders (headerNumber : Nat) (headerHash : H256)
      (parentNumber : Nat) (parentHash : H256)
  | requestError (error : RequestError)
  deriving DecidableEq, Repr

/-- Modelled from the spec: a table row an invariant of the data model says must exist. -/
inductive DatabaseIntegrityError
  | canonicalHeader (number : Nat)
  | header (number : Nat) (hash : H256)
  | totalDifficulty (number : Nat)
  | blockBody (number : Nat)
  deriving DecidableEq, Repr

/-- `SendersStageError`. -/
inductive SendersStageError
  | senderRecovery (tx : Nat)
  deriving DecidableEq, Repr

/-- Modelled from the spec: the stage error taxonomy. `Download` carries the text of a download
error, represented by the error itself; `Recoverable` and `Fatal` box the errors these stages
put in them. -/
inductive StageError
  | validation (block : Nat) (error : ConsensusError)
  | download (error : DownloadError)
  | database (error : DbError)
  | databaseIntegrity (error : DatabaseIntegrityError)
  | stageProgress (progress : Nat)
  | recoverable (error : DownloadError)
  | fatal (error : SendersStageError)
  deriving DecidableEq, Repr

/-- Modelled from the spec: a stage's input, the previous stage's progress and its own. -/
structure ExecInput where
  previousStage : Option Nat
  stageProgress : Option Nat
  deriving DecidableEq, Repr

def ExecInput.previousStageProgress (input : ExecInput) : Nat :=
  input.previousStage.getD 0

/-- Modelled from the spec: a stage's output. -/
structure ExecOutput where
  stageProgress : Nat
  done : Bool
  reachedTip : Bool
  deriving DecidableEq, Repr

/-- Modelled from the spec: the block an unwind goes back to. -/
structure UnwindInput where
  unwindTo : Nat
  deriving DecidableEq, Repr

structure UnwindOutput where
  stageProgress : Nat
  deriving DecidableEq, Repr

end Reth
