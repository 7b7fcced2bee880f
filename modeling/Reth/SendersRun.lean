import Reth.SendersLayout
import Mathlib.Logic.Relation
import Mathlib.Tactic.IntervalCases

namespace Reth
set_option autoImplicit true

/-- Block 0 carries transaction 0, block 1 none, block 2 transaction 1. -/
def emptyMiddleDb : Tables where
  canonicalHeaders := ⟨[(0, 10), (1, 11), (2, 12)], by decide⟩
  headerNumbers := .empty
  headers := .empty
  headerTD := .empty
  blockBodies :=
    ⟨[(⟨0, 10⟩, ⟨0, 1⟩), (⟨1, 11⟩, ⟨1, 0⟩), (⟨2, 12⟩, ⟨1, 1⟩)], by decide⟩
  transactions := ⟨[(0, some ⟨some 7⟩), (1, some ⟨some 8⟩)], by decide⟩
  txSenders := ⟨[(0, 7)], by decide⟩

/-- `emptyMiddleDb` once the signers of both transactions are recorded. -/
def syncedMiddleDb : Tables := { emptyMiddleDb with txSenders := ⟨[(0, 7), (1, 8)], by decide⟩ }

/-- Blocks 0 and 1 carry no transaction; block 2 carries transaction 0, signed by 7. -/
def emptyPrefixDb : Tables where
  canonicalHeaders := ⟨[(0, 10), (1, 11), (2, 12)], by decide⟩
  headerNumbers := .empty
  headers := .empty
  headerTD := .empty
  blockBodies :=
    ⟨[(⟨0, 10⟩, ⟨0, 0⟩), (⟨1, 11⟩, ⟨0, 0⟩), (⟨2, 12⟩, ⟨0, 1⟩)], by decide⟩
  transactions := ⟨[(0, some ⟨some 7⟩)], by decide⟩
  txSenders := .empty

/-- `TxSenders` holding the signer of block 2's transaction. -/
def syncedEmptyPrefixDb : Tables := { emptyPrefixDb with txSenders := ⟨[(0, 7)], by decide⟩ }

/-- A transaction row that does not decode at index 0 of block 1, which carries transactions 0
and 1. -/
def corruptRowDb : Tables where
  canonicalHeaders := ⟨[(0, 10), (1, 11)], by decide⟩
  headerNumbers := .empty
  headers := .empty
  headerTD := .empty
  blockBodies := ⟨[(⟨0, 10⟩, ⟨0, 0⟩), (⟨1, 11⟩, ⟨0, 2⟩)], by decide⟩
  transactions := ⟨[(0, none), (1, some ⟨some 8⟩)], by decide⟩
  txSenders := .empty

/-- The bodies of `emptyMiddleDb`: block 0 carries transaction 0, block 1 none, block 2
transaction 1. -/
def emptyMiddleBody (n : Nat) : StoredBlockBody :=
  [⟨0, 1⟩, ⟨1, 0⟩, ⟨1, 1⟩].getD n ⟨2, 0⟩

def emptyMiddleSigner (i : Nat) : Address := [7, 8].getD i 0

theorem emptyMiddleDb_layout : SendersLayout emptyMiddleDb 2 emptyMiddleBody emptyMiddleSigner where
  body_get n hn := by interval_cases n <;> rfl
  start_zero := rfl
  start_succ n hn := by interval_cases n <;> rfl
  transactions := rfl

/-- The bodies of `emptyPrefixDb`: blocks 0 and 1 carry no transaction, block 2 transaction 0. -/
def emptyPrefixBody (n : Nat) : StoredBlockBody :=
  [⟨0, 0⟩, ⟨0, 0⟩, ⟨0, 1⟩].getD n ⟨1, 0⟩

theorem syncedEmptyPrefixDb_layout :
    SendersLayout syncedEmptyPrefixDb 2 emptyPrefixBody (fun _ => 7) where
  body_get n hn := by interval_cases n <;> rfl
  start_zero := rfl
  start_succ n hn := by interval_cases n <;> rfl
  transactions := rfl

/-- One call of a Senders run: `execute` from the current progress, under any stage configuration
and any previous-stage progress up to `p`. A failed call leaves tables and progress as they were. -/
inductive SendersStep (p : Nat) : Tables × Nat → Tables × Nat → Prop
  | ok (stage : SendersStage) (hq : q ≤ p)
      (h : stage.execute db ⟨some q, some s⟩ = .ok (o, db')) :
      SendersStep p (db, s) (db', o.stageProgress)
  | error (stage : SendersStage) (hq : q ≤ p)
      (h : stage.execute db ⟨some q, some s⟩ = .error e) :
      SendersStep p (db, s) (db, s)

/-- Once a block at or below the starting progress carries a transaction (or no block up to `p`
does), every run keeps `TxSenders` holding exactly the signers of the blocks up to the progress,
and no call from the state it reaches can fail: the final table depends on the final progress
alone, not on the thresholds or batch sizes. -/
theorem senders_run_invariant {body : Nat → StoredBlockBody} {signer : Nat → Address}
    (hl : SendersLayout db p body signer) (hs : s ≤ p)
    (hc : 0 < txEnd body s ∨ txEnd body p = 0)
    (hi : db.txSenders.rows = rowsBelow signer (txEnd body s))
    (hrun : Relation.ReflTransGen (SendersStep p) (db, s) (db', s')) :
    SendersLayout db' p body signer ∧ s ≤ s' ∧ s' ≤ p ∧
      db'.txSenders.rows = rowsBelow signer (txEnd body s') ∧
      ∀ (stage : SendersStage) q, q ≤ p →
        ∃ r, stage.execute db' ⟨some q, some s'⟩ = .ok r := by
  suffices ∀ st, Relation.ReflTransGen (SendersStep p) (db, s) st →
      SendersLayout st.1 p body signer ∧ s ≤ st.2 ∧ st.2 ≤ p ∧
        st.1.txSenders.rows = rowsBelow signer (txEnd body st.2) by
    obtain ⟨hl', hs', hp', hi'⟩ := this _ hrun
    refine ⟨hl', hs', hp', hi', fun stage q hq => ?_⟩
    obtain ⟨o, t, he, -⟩ := hl'.execute_ok stage hp' hq
      (hc.imp_left fun h => lt_of_lt_of_le h (hl.txEnd_mono hs' hp')) hi'
    exact ⟨_, he⟩
  intro st hrun
  induction hrun with
  | refl => exact ⟨hl, le_rfl, hs, hi⟩
  | tail _ hstep ih =>
    obtain ⟨hl₁, hs₁, hp₁, hi₁⟩ := ih
    cases hstep with
    | error => exact ⟨hl₁, hs₁, hp₁, hi₁⟩
    | @ok q _ s₁ o _ stage hq h =>
      have hc₁ : 0 < txEnd body s₁ ∨ txEnd body p = 0 :=
        hc.imp_left fun h => lt_of_lt_of_le h (hl.txEnd_mono hs₁ hp₁)
      obtain ⟨o', t, he, hso, hop, ht⟩ := hl₁.execute_ok stage hp₁ hq hc₁ hi₁
      obtain ⟨rfl, rfl⟩ := Prod.mk.inj (Except.ok.inj (h.symm.trans he))
      exact ⟨hl₁.with_txSenders t, hs₁.trans hso, hop, ht⟩

theorem senders_run_invariant_emptyMiddleDb :
    SendersLayout emptyMiddleDb 2 emptyMiddleBody emptyMiddleSigner ∧ 0 ≤ 1 ∧ 1 ≤ 2 ∧
      emptyMiddleDb.txSenders.rows = rowsBelow emptyMiddleSigner (txEnd emptyMiddleBody 1) ∧
      ∀ (stage : SendersStage) q, q ≤ 2 →
        ∃ r, stage.execute emptyMiddleDb ⟨some q, some 1⟩ = .ok r :=
  senders_run_invariant emptyMiddleDb_layout (by decide) (.inl (by decide)) rfl
    (.single (SendersStep.ok (SendersStage.mk 1 1 Nat.one_pos) (q := 2) (o := ⟨1, true, true⟩)
      (by decide) rfl))

/-- A call covering only the empty blocks 1 records the signer of block 2's transaction, since the
empty body's last index saturates to 0; the next call then fails appending index 0 again. -/
theorem execute_empty_prefix_appends_later_transaction :
    ((SendersStage.mk 1 1 Nat.one_pos).execute emptyPrefixDb ⟨some 2, some 0⟩).map
        (fun r => (r.1, r.2.txSenders.rows)) = .ok (⟨1, false, false⟩, [(0, 7)]) ∧
      ((SendersStage.mk 1 1 Nat.one_pos).execute emptyPrefixDb ⟨some 2, some 0⟩ >>= fun r =>
        (SendersStage.mk 1 1 Nat.one_pos).execute r.2 ⟨some 2, some 1⟩).map Prod.fst =
        .error (.database .write) :=
  ⟨rfl, rfl⟩

namespace SendersLayout

variable {db : Tables} {p : Nat} {body : Nat → StoredBlockBody} {signer : Nat → Address}

theorem unwind_eq (hl : SendersLayout db p body signer) (hu : u ≤ p) :
    SendersStage.unwind db ⟨u⟩ =
      .ok (⟨u⟩, { db with txSenders := db.txSenders.unwindByNum (body u).lastTxIndex }) := by
  rw [SendersStage.unwind, hl.body_get u hu]
  rfl

/-- `unwind` to a block `u ≤ P`, from `TxSenders` holding the signers of blocks `0..P`, keeps the
signers of the transactions below `max (txEnd u) 1`: those of blocks `0..u`, and also the signer
of transaction 0 when blocks `0..u` carry no transaction, since the empty body's last index
saturates to 0. -/
theorem unwind_rows (hl : SendersLayout db p body signer) (hu : u ≤ P) (hP : P ≤ p)
    (hi : db.txSenders.rows = rowsBelow signer (txEnd body P)) :
    ∃ t, SendersStage.unwind db ⟨u⟩ = .ok (⟨u⟩, { db with txSenders := t }) ∧
      t.rows = rowsBelow signer (min (txEnd body P) (max (txEnd body u) 1)) :=
  ⟨_, hl.unwind_eq (hu.trans hP), by rw [unwindByNum_rowsBelow hi, lastTxIndex_add_one]⟩

end SendersLayout

theorem unwind_rows_syncedEmptyPrefixDb :
    ∃ t, SendersStage.unwind syncedEmptyPrefixDb ⟨1⟩ =
        .ok (⟨1⟩, { syncedEmptyPrefixDb with txSenders := t }) ∧
      t.rows = rowsBelow (fun _ => 7)
        (min (txEnd emptyPrefixBody 2) (max (txEnd emptyPrefixBody 1) 1)) :=
  SendersLayout.unwind_rows syncedEmptyPrefixDb_layout (by decide) le_rfl rfl

/-- Unwinding to block 1, whose blocks `0..1` carry no transaction, keeps the signer of block 2's
transaction. -/
theorem unwind_empty_prefix_keeps_later_signer :
    (SendersStage.unwind syncedEmptyPrefixDb ⟨1⟩).map (·.2.txSenders.rows) = .ok [(0, 7)] :=
  rfl

namespace SendersLayout

variable {db : Tables} {p : Nat} {body : Nat → StoredBlockBody} {signer : Nat → Address}

end SendersLayout

/-- What every successful `execute` reports, on any database and configuration: progress between
its own and the previous stage's, `reached_tip = done`, `done` whenever it reaches the previous
stage, and real progress when the threshold is positive and `stage_progress + C` fits in `u64`. -/
theorem SendersStage.execute_progress (stage : SendersStage) (db : Tables) (hsq : s ≤ q)
    (h : stage.execute db ⟨some q, some s⟩ = .ok (o, db')) :
    s ≤ o.stageProgress ∧ o.stageProgress ≤ q ∧ o.reachedTip = o.done ∧
      (o.stageProgress = q → o.done = true) ∧
      (0 < stage.commitThreshold → s + stage.commitThreshold < 2 ^ 64 → s < q →
        s < o.stageProgress) := by
  unfold execute at h
  simp only [Option.getD_some, ExecInput.previousStageProgress] at h
  have hwrap (h₁ : s + stage.commitThreshold < 2 ^ 64) :
      addU64 s stage.commitThreshold = s + stage.commitThreshold := Nat.mod_eq_of_lt h₁
  split_ifs at h with hm
  · obtain ⟨rfl, -⟩ := Prod.mk.inj (Except.ok.inj h.symm)
    refine ⟨le_rfl, hsq, rfl, fun _ => rfl, fun hc hw hq => ?_⟩
    rw [hwrap hw] at hm
    omega
  simp only [except_pure, except_ok_bind] at h
  obtain ⟨b₁, -, h⟩ := except_bind_eq_ok.1 h
  obtain ⟨b₂, -, h⟩ := except_bind_eq_ok.1 h
  split_ifs at h with he
  · obtain ⟨rfl, -⟩ := Prod.mk.inj (Except.ok.inj h.symm)
    dsimp only
    exact ⟨by omega, by omega, rfl, fun _ => rfl, fun _ _ _ => by omega⟩
  obtain ⟨t, -, h⟩ := except_bind_eq_ok.1 h
  obtain ⟨rfl, -⟩ := Prod.mk.inj (Except.ok.inj h.symm)
  dsimp only
  exact ⟨by omega, by omega, rfl, fun e => by simp [e], fun _ _ _ => by omega⟩

theorem execute_progress_syncedMiddleDb :
    (SendersStage.mk 1 1 Nat.one_pos).execute emptyMiddleDb ⟨some 2, some 1⟩ =
        .ok (⟨2, true, true⟩, syncedMiddleDb) ∧
      1 ≤ 2 ∧ 2 ≤ 2 ∧ true = true ∧ (2 = 2 → true = true) ∧
      (0 < 1 → 1 + 1 < 2 ^ 64 → 1 < 2 → 1 < 2) :=
  have h : (SendersStage.mk 1 1 Nat.one_pos).execute emptyMiddleDb ⟨some 2, some 1⟩ =
      .ok (⟨2, true, true⟩, syncedMiddleDb) := rfl
  ⟨h, SendersStage.execute_progress _ _ (by decide) h⟩

/-- A call whose range, block 1, holds no transaction reports `done` at block 1, short of the
previous stage's block 2. -/
theorem execute_empty_range_reports_done :
    ((SendersStage.mk 1 1 Nat.one_pos).execute emptyMiddleDb ⟨some 2, some 0⟩).map Prod.fst =
      .ok ⟨1, true, true⟩ :=
  rfl

theorem takeWhile_map_filter_below {l : List (Nat × V)} {f : Nat × V → α}
    (hl : l.Pairwise (·.1 < ·.1)) (hi : (i, v) ∈ l) (hq : q (i, v) = true)
    (hp : p (f (i, v)) = false) :
    ((l.filter q).map f).takeWhile p = (((l.filter (·.1 < i)).filter q).map f).takeWhile p := by
  induction l with
  | nil => cases hi
  | cons r l ih =>
    obtain ⟨hr, hl⟩ := List.pairwise_cons.1 hl
    rcases List.mem_cons.1 hi with rfl | hi
    · have hnil : l.filter (·.1 < i) = [] :=
        List.filter_eq_nil_iff.2 fun a ha => by simpa using (hr a ha).le
      simp [List.filter_cons, hq, hp, hnil]
    · have hri : r.1 < i := hr _ hi
      by_cases hqr : q r = true <;> simp [List.filter_cons, hqr, hri, List.takeWhile_cons, ih hl hi]

namespace SendersStage

theorem takeWhile_walkTransactions_retain {db : Tables}
    (hi : db.transactions.get i = some none) (hs : start ≤ i) :
    (db.walkTransactions start).takeWhile (inRange endTxIndex) =
      ({ db with transactions := db.transactions.retain (· < i) }.walkTransactions start).takeWhile
        (inRange endTxIndex) :=
  takeWhile_map_filter_below db.transactions.sorted (Table.get_eq_some.1 hi) (decide_eq_true hs)
    rfl

/-- A transaction row that does not decode, anywhere the walk from the range's first transaction
reaches, is never reported: `execute` returns what it returns on the table cut off before that
row, as if the table ended there. -/
theorem execute_read_error_truncates (stage : SendersStage) (db : Tables) (input : ExecInput)
    (hb : db.getBlockBodyByNum (input.stageProgress.getD 0 + 1) = .ok body)
    (hs : body.startTxId ≤ i) (hi : db.transactions.get i = some none) :
    stage.execute db input =
      (stage.execute { db with transactions := db.transactions.retain (· < i) } input).map
        fun r => (r.1, { r.2 with transactions := db.transactions }) := by
  have hbody : ∀ n, Tables.getBlockBodyByNum
      { db with transactions := db.transactions.retain (· < i) } n = db.getBlockBodyByNum n :=
    fun _ => rfl
  unfold execute
  simp only [hbody, hb, except_ok_bind]
  split_ifs
  · rfl
  generalize db.getBlockBodyByNum _ = r₂
  cases r₂ with
  | error e => rfl
  | ok b₂ =>
    simp only [except_ok_bind]
    split_ifs
    · rfl
    rw [takeWhile_walkTransactions_retain hi hs]
    generalize List.foldlM appendChunk db.txSenders _ = r
    cases r <;> rfl

end SendersStage

theorem execute_read_error_truncates_corruptRowDb :
    (SendersStage.mk 1 1 Nat.one_pos).execute corruptRowDb ⟨some 1, some 0⟩ =
      ((SendersStage.mk 1 1 Nat.one_pos).execute
          { corruptRowDb with transactions := corruptRowDb.transactions.retain (· < 0) }
          ⟨some 1, some 0⟩).map
        fun r => (r.1, { r.2 with transactions := corruptRowDb.transactions }) :=
  SendersStage.execute_read_error_truncates _ _ _ rfl le_rfl rfl

/-- The read error on transaction 0 ends the walk instead of failing the call: `execute` reports
block 1 done with no signer recorded for either of its transactions. -/
theorem execute_read_error_ends_walk :
    ((SendersStage.mk 1 1 Nat.one_pos).execute corruptRowDb ⟨some 1, some 0⟩).map
        (fun r => (r.1, r.2.txSenders.rows)) = .ok (⟨1, true, true⟩, []) :=
  rfl

end Reth
