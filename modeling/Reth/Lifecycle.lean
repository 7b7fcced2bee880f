import Reth.HeadersContract
import Reth.SendersContract

namespace Reth
set_option autoImplicit true

/-- What forward execution may do to the tables: every table keeps each key it held, `HeaderTD`
and `TxSenders`, written by appending cursors, keep their rows in front, and the block bodies and
the transactions are not written. -/
structure Tables.Extends (db db' : Tables) : Prop where
  canonicalHeaders :
    ∀ n, (db.canonicalHeaders.get n).isSome → (db'.canonicalHeaders.get n).isSome
  headerNumbers : ∀ x, (db.headerNumbers.get x).isSome → (db'.headerNumbers.get x).isSome
  headers : ∀ k, (db.headers.get k).isSome → (db'.headers.get k).isSome
  headerTD : db.headerTD.rows <+: db'.headerTD.rows
  blockBodies : db'.blockBodies = db.blockBodies
  transactions : db'.transactions = db.transactions
  txSenders : db.txSenders.rows <+: db'.txSenders.rows

theorem Table.isSome_get_put [LinearOrder K] {t : Table K V} (h : (t.get k').isSome) :
    ((t.put k v).get k').isSome := by
  rw [Table.get_put]
  split_ifs <;> simp [h]

namespace Tables.Extends

theorem refl (db : Tables) : Extends db db :=
  ⟨fun _ => id, fun _ => id, fun _ => id, List.prefix_refl _, rfl, rfl, List.prefix_refl _⟩

theorem trans (h₁ : Extends db₁ db₂) (h₂ : Extends db₂ db₃) : Extends db₁ db₃ :=
  ⟨fun n hn => h₂.canonicalHeaders n (h₁.canonicalHeaders n hn),
    fun x hx => h₂.headerNumbers x (h₁.headerNumbers x hx),
    fun k hk => h₂.headers k (h₁.headers k hk), h₁.headerTD.trans h₂.headerTD,
    h₂.blockBodies.trans h₁.blockBodies, h₂.transactions.trans h₁.transactions,
    h₁.txSenders.trans h₂.txSenders⟩

theorem writeHeaders (db : Tables) (hs : List SealedHeader) :
    Extends db (db.writeHeaders hs).1 := by
  induction hs with
  | nil => exact refl db
  | cons h hs ih =>
    rw [Tables.writeHeaders_cons]
    split_ifs
    · exact ih
    · exact ih.trans ⟨fun _ => Table.isSome_get_put, fun _ => Table.isSome_get_put,
        fun _ => Table.isSome_get_put, List.prefix_refl _, rfl, rfl, List.prefix_refl _⟩

theorem writeTd (h : HeaderStage.writeTd db head = .ok db') : Extends db db' := by
  obtain ⟨td, -, h⟩ := except_bind_eq_ok.1 h
  obtain ⟨key, -, h⟩ := except_bind_eq_ok.1 h
  obtain ⟨acc, hacc, h⟩ := except_bind_eq_ok.1 h
  cases h
  obtain ⟨zs, hzs, -⟩ := HeaderStage.foldlM_appendTd_rows hacc
  exact ⟨fun _ => id, fun _ => id, fun _ => id, ⟨zs, hzs.symm⟩, rfl, rfl,
    List.prefix_refl _⟩

theorem headers_execute (stage : HeaderStage) (db : Tables) (input : ExecInput) :
    Extends db (stage.execute db input).1 := by
  obtain ⟨hs, h | ⟨head, h⟩⟩ := HeaderStage.execute_fst stage db input
  · rw [h]
    exact writeHeaders db hs
  · exact (writeHeaders db hs).trans (writeTd h)

theorem senders_execute (h : SendersStage.execute stage db input = .ok (out, db')) :
    Extends db db' := by
  obtain ⟨t, ys, rfl, hys, -⟩ := SendersStage.execute_ok_walked h
  exact ⟨fun _ => id, fun _ => id, fun _ => id, List.prefix_refl _, rfl, rfl,
    ⟨ys, hys.symm⟩⟩

end Tables.Extends

/-- One forward call of the two stages on the tables: a header `execute`, which leaves the tables
it committed whatever it returns, or a senders `execute` that succeeds (one that fails leaves no
write). -/
inductive ForwardStep : Tables → Tables → Prop
  | headers (stage : HeaderStage) (input : ExecInput) (db : Tables) :
      ForwardStep db (stage.execute db input).1
  | senders (stage : SendersStage) (input : ExecInput) {db db' : Tables} {out : ExecOutput}
      (h : stage.execute db input = .ok (out, db')) : ForwardStep db db'

theorem ForwardStep.tables_extend (h : ForwardStep db db') : Tables.Extends db db' := by
  cases h with
  | headers stage input db => exact .headers_execute stage db input
  | senders stage input h => exact .senders_execute h

/-- Over every run of header and senders `execute` calls, in any order, from any tables, no row
is deleted: each table keeps every key it held, `HeaderTD` and `TxSenders` keep their rows in
front, and the block bodies and transactions are never written. Rows go only in `unwind`. -/
theorem forward_run_extends (h : Relation.ReflTransGen ForwardStep db db') :
    Tables.Extends db db' := by
  induction h with
  | refl => exact .refl _
  | tail _ hs ih => exact ih.trans hs.tables_extend

theorem forward_run_extends_genesis :
    Tables.Extends HeaderStage.genesisDb
      (HeaderStage.timeoutStage.execute HeaderStage.genesisDb ⟨none, some 0⟩).1 :=
  forward_run_extends
    (.tail (.single (.headers HeaderStage.timeoutStage ⟨none, some 0⟩ HeaderStage.genesisDb))
      (.senders (SendersStage.mk 1 1 Nat.one_pos) ⟨some 0, some 0⟩ rfl))

end Reth
