import Reth.Senders

namespace Reth
set_option autoImplicit true

namespace SendersStage

theorem recoverSigners_cons (i : Nat) (tx : TransactionSigned)
    (xs : List (Nat × TransactionSigned)) :
    recoverSigners ((i, tx) :: xs) =
      match tx.recoverSigner with
      | some s => (recoverSigners xs).map ((i, s) :: ·)
      | none => .error (.fatal (.senderRecovery i)) := by
  rw [recoverSigners, List.mapM_cons, ← recoverSigners]
  cases hr : tx.recoverSigner <;> cases recoverSigners xs <;> simp only [hr] <;> rfl

theorem recoverSigners_eq_ok {xs : List (Nat × TransactionSigned)} {ys : List (Nat × Address)} :
    recoverSigners xs = .ok ys ↔
      xs.map (fun e => (e.1, e.2.recoverSigner)) = ys.map fun p => (p.1, some p.2) := by
  induction xs generalizing ys with
  | nil =>
    rw [show recoverSigners [] = .ok [] from rfl]
    cases ys <;> simp
  | cons e xs ih =>
    obtain ⟨i, tx⟩ := e
    rw [recoverSigners_cons]
    cases hr : tx.recoverSigner <;> cases hx : recoverSigners xs <;> cases ys <;>
      simp [hr, hx, Except.map, ← ih, Prod.ext_iff]

theorem recoverSigners_ok {xs : List (Nat × TransactionSigned)}
    (h : ∀ e ∈ xs, e.2.recoverSigner ≠ none) : ∃ ys, recoverSigners xs = .ok ys := by
  induction xs with
  | nil => exact ⟨[], rfl⟩
  | cons e xs ih =>
    obtain ⟨i, tx⟩ := e
    obtain ⟨s, hs⟩ : ∃ s, tx.recoverSigner = some s :=
      Option.ne_none_iff_exists'.1 (h _ (List.mem_cons_self _ _))
    obtain ⟨ys, hys⟩ := ih fun e he => h e (List.mem_cons_of_mem _ he)
    exact ⟨(i, s) :: ys, by simp [recoverSigners_cons, hs, hys, Except.map]⟩

theorem recoverSigners_of_unrecoverable {xs : List (Nat × TransactionSigned)}
    (h : ∃ e ∈ xs, e.2.recoverSigner = none) :
    ∃ id tx, (id, tx) ∈ xs ∧ tx.recoverSigner = none ∧
      recoverSigners xs = .error (.fatal (.senderRecovery id)) := by
  induction xs with
  | nil => obtain ⟨_, h, -⟩ := h; cases h
  | cons e xs ih =>
    obtain ⟨i, tx⟩ := e
    cases hr : tx.recoverSigner with
    | none => exact ⟨i, tx, List.mem_cons_self _ _, hr, by simp [recoverSigners_cons, hr]⟩
    | some s =>
      obtain ⟨e, he, hn⟩ := h
      have he' : e ∈ xs := (List.mem_cons.1 he).resolve_left fun h => by simp_all
      obtain ⟨id, tx', hm, hn', hx⟩ := ih ⟨e, he', hn⟩
      exact ⟨id, tx', List.mem_cons_of_mem _ hm, hn', by
        simp [recoverSigners_cons, hr, hx, Except.map]⟩

theorem appendSenders_append (t : Table Nat Address) (xs ys : List (Nat × Address)) :
    appendSenders t (xs ++ ys) = appendSenders t xs >>= fun t' => appendSenders t' ys :=
  List.foldlM_append _ _ _ _

theorem appendChunk_map_ok (t : Table Nat Address) (c : List (Nat × TransactionSigned)) :
    appendChunk t (c.map .ok) = recoverSigners c >>= appendSenders t := by
  simp only [appendChunk, collect_map_ok]
  rfl

theorem foldlM_appendChunk_of_ok (cs : List (List (Nat × TransactionSigned)))
    (t : Table Nat Address) (h : recoverSigners cs.flatten = .ok ys) :
    (cs.map (List.map .ok)).foldlM appendChunk t = appendSenders t ys := by
  induction cs generalizing t ys with
  | nil =>
    cases h
    rfl
  | cons c cs ih =>
    rw [List.flatten_cons, recoverSigners, List.mapM_append, ← recoverSigners,
      ← recoverSigners] at h
    obtain ⟨a, ha, h⟩ := except_bind_eq_ok.1 h
    obtain ⟨b, hb, h⟩ := except_bind_eq_ok.1 h
    cases h
    rw [List.map_cons, List.foldlM_cons, appendChunk_map_ok, ha, except_ok_bind,
      appendSenders_append]
    congr 1
    funext t'
    exact ih t' hb

theorem appendSenders_of_sorted {t : Table Nat Address} (ys : List (Nat × Address))
    (h : (t.rows ++ ys).Pairwise (fun a b => a.1 < b.1)) :
    ∃ t', appendSenders t ys = .ok t' ∧ t'.rows = t.rows ++ ys := by
  induction ys generalizing t with
  | nil => exact ⟨t, rfl, by simp⟩
  | cons y ys ih =>
    obtain ⟨k, v⟩ := y
    obtain ⟨t₁, h₁, hr₁⟩ := Table.append_of_lt (k := k) (v := v) fun r hr =>
      (List.pairwise_append.1 h).2.2 r hr (k, v) (List.mem_cons_self _ _)
    obtain ⟨t', h', hr'⟩ := ih (t := t₁) (by simpa [hr₁] using h)
    refine ⟨t', ?_, by simp [hr', hr₁]⟩
    simp only [appendSenders, List.foldlM_cons, h₁]
    exact h'

theorem keys_of_recover {xs : List (Nat × TransactionSigned)} {ys : List (Nat × Address)}
    (h : xs.map (fun e => (e.1, e.2.recoverSigner)) = ys.map fun p => (p.1, some p.2)) :
    ys.map Prod.fst = xs.map Prod.fst := by
  simpa [Function.comp_def] using (congrArg (List.map Prod.fst) h).symm

theorem appendSenders_of_keys {t : Table Nat Address} {zs : List (Nat × TransactionSigned)}
    {ys : List (Nat × Address)} (hbelow : ∀ r ∈ t.rows, ∀ e ∈ zs, r.1 < e.1)
    (hzs : zs.Pairwise (·.1 < ·.1)) (hkeys : ys.map Prod.fst = zs.map Prod.fst) :
    ∃ t', appendSenders t ys = .ok t' ∧ t'.rows = t.rows ++ ys := by
  have hmem : ∀ y ∈ ys, ∃ e ∈ zs, e.1 = y.1 := fun y hy => by
    have : y.1 ∈ zs.map Prod.fst := hkeys ▸ List.mem_map_of_mem _ hy
    simpa using this
  refine appendSenders_of_sorted ys (List.pairwise_append.2 ⟨t.sorted, ?_, fun r hr y hy => ?_⟩)
  · rw [← List.pairwise_map (R := (· < ·)), hkeys, List.pairwise_map]
    exact hzs
  · obtain ⟨e, he, hey⟩ := hmem y hy
    exact hey ▸ hbelow r hr e he

theorem foldlM_appendChunk_of_error (hB : 0 < B) (t : Table Nat Address)
    {xs pre post : List (Nat × TransactionSigned)} (hxs : xs = pre ++ (i, tx) :: post)
    (hpre : ∀ e ∈ pre, e.2.recoverSigner ≠ none) (htx : tx.recoverSigner = none) :
    ∃ done id tx', recoverSigners ((chunks B xs).take (pre.length / B)).flatten = .ok done ∧
      (id, tx') ∈ (chunks B xs).getD (pre.length / B) [] ∧ tx'.recoverSigner = none ∧
      (chunks B (xs.map .ok)).foldlM appendChunk t =
        appendSenders t done >>= fun _ => .error (.fatal (.senderRecovery id)) := by
  have hm : pre.length / B * B ≤ pre.length := Nat.div_mul_le_self _ _
  have hrem : pre.length - pre.length / B * B < B := by
    have := Nat.mod_lt pre.length hB
    have := Nat.div_add_mod pre.length B
    rw [Nat.mul_comm] at this
    omega
  set j := pre.length / B
  -- the chunks before hold entries of `pre` only
  have hbefore : ((chunks B xs).take j).flatten = pre.take (j * B) := by
    rw [chunks_take hB, flatten_chunks hB, hxs, List.take_append_of_le_length hm]
  obtain ⟨done, hdone⟩ : ∃ ys, recoverSigners (pre.take (j * B)) = .ok ys :=
    recoverSigners_ok fun e he => hpre e (List.mem_of_mem_take he)
  -- the next chunk holds the failing entry
  have hdrop : xs.drop (j * B) = pre.drop (j * B) ++ (i, tx) :: post := by
    rw [hxs, List.drop_append_of_le_length hm]
  have hafter : (chunks B xs).drop j =
      (xs.drop (j * B)).take B :: chunks B ((xs.drop (j * B)).drop B) := by
    rw [← chunks_drop hB, chunks_of_ne_nil hB (by rw [hdrop]; simp)]
  have hmem : (i, tx) ∈ (xs.drop (j * B)).take B := by
    obtain ⟨r, hr⟩ := Nat.exists_eq_succ_of_ne_zero
      (show B - (pre.drop (j * B)).length ≠ 0 by simp; omega)
    rw [hdrop, List.take_append_eq_append_take, hr, List.take_succ_cons]
    exact List.mem_append_right _ (List.mem_cons_self _ _)
  obtain ⟨id, tx', hm', hn, herr⟩ := recoverSigners_of_unrecoverable ⟨_, hmem, htx⟩
  refine ⟨done, id, tx', hbefore ▸ hdone, ?_, hn, ?_⟩
  · simpa only [List.getD_eq_getElem?_getD, ← List.head?_drop, hafter] using hm'
  · rw [chunks_map, ← List.take_append_drop j (chunks B xs), List.map_append, List.foldlM_append,
      foldlM_appendChunk_of_ok _ t (hbefore ▸ hdone)]
    simp only [hafter, List.map_cons, List.foldlM_cons, appendChunk_map_ok, herr,
      except_error_bind]

/-- Transaction 0, signed by 7, then transaction 1, whose signer does not recover. -/
def mixedEntries : List (Nat × TransactionSigned) := [(0, ⟨some 7⟩), (1, ⟨none⟩)]

/-- The chunk loop of `execute` over walked entries in ascending index order does what one
`recover_signer` map over the whole list and its appends would, whatever the batch size: with
every signer recovered, it appends the recovered pairs in order; otherwise it appends those of the
chunks before the first chunk holding a signer that does not recover, then fails with the sender
recovery error of a transaction of that chunk. Where `TxSenders` holds only keys below the walked
ones, each of these appends succeeds. -/
theorem foldlM_appendChunk_eq_sequential (hB : 0 < B) (t : Table Nat Address)
    (xs : List (Nat × TransactionSigned)) (hxs : xs.Pairwise (·.1 < ·.1)) :
    (∀ ys : List (Nat × Address),
      xs.map (fun e => (e.1, e.2.recoverSigner)) = ys.map (fun p => (p.1, some p.2)) →
      (chunks B (xs.map .ok)).foldlM appendChunk t = appendSenders t ys ∧
      ((∀ r ∈ t.rows, ∀ e ∈ xs, r.1 < e.1) →
        ∃ t', appendSenders t ys = .ok t' ∧ t'.rows = t.rows ++ ys)) ∧
    (∀ pre i tx post, xs = pre ++ (i, tx) :: post → (∀ e ∈ pre, e.2.recoverSigner ≠ none) →
      tx.recoverSigner = none →
      ∃ done id tx',
        ((chunks B xs).take (pre.length / B)).flatten.map (fun e => (e.1, e.2.recoverSigner)) =
          done.map (fun p => (p.1, some p.2)) ∧
        (id, tx') ∈ (chunks B xs).getD (pre.length / B) [] ∧ tx'.recoverSigner = none ∧
        (chunks B (xs.map .ok)).foldlM appendChunk t =
          appendSenders t done >>= (fun _ => .error (.fatal (.senderRecovery id))) ∧
        ((∀ r ∈ t.rows, ∀ e ∈ xs, r.1 < e.1) →
          ∃ t', appendSenders t done = .ok t' ∧ t'.rows = t.rows ++ done)) := by
  refine ⟨fun ys hys => ⟨?_, fun hbelow => appendSenders_of_keys hbelow hxs (keys_of_recover hys)⟩,
    fun pre i tx post hsplit hpre htx => ?_⟩
  · rw [chunks_map, foldlM_appendChunk_of_ok _ t
      (by rw [flatten_chunks hB]; exact recoverSigners_eq_ok.2 hys)]
  obtain ⟨done, id, tx', hdone, hmem, hn, hloop⟩ :=
    foldlM_appendChunk_of_error hB t hsplit hpre htx
  have hsub : List.Sublist ((chunks B xs).take (pre.length / B)).flatten xs := by
    rw [chunks_take hB, flatten_chunks hB]
    exact List.take_sublist _ _
  refine ⟨done, id, tx', recoverSigners_eq_ok.1 hdone, hmem, hn, hloop, fun hbelow => ?_⟩
  exact appendSenders_of_keys (fun r hr e he => hbelow r hr e (hsub.subset he))
    (hxs.sublist hsub) (keys_of_recover (recoverSigners_eq_ok.1 hdone))

theorem foldlM_appendChunk_eq_sequential_mixed :
    (∀ ys : List (Nat × Address),
      mixedEntries.map (fun e => (e.1, e.2.recoverSigner)) = ys.map (fun p => (p.1, some p.2)) →
      (chunks 2 (mixedEntries.map .ok)).foldlM appendChunk .empty = appendSenders .empty ys ∧
      ((∀ r ∈ (Table.empty : Table Nat Address).rows, ∀ e ∈ mixedEntries, r.1 < e.1) →
        ∃ t', appendSenders .empty ys = .ok t' ∧ t'.rows = Table.empty.rows ++ ys)) ∧
    (∀ pre i tx post, mixedEntries = pre ++ (i, tx) :: post →
      (∀ e ∈ pre, e.2.recoverSigner ≠ none) → tx.recoverSigner = none →
      ∃ done id tx',
        ((chunks 2 mixedEntries).take (pre.length / 2)).flatten.map
            (fun e => (e.1, e.2.recoverSigner)) = done.map (fun p => (p.1, some p.2)) ∧
        (id, tx') ∈ (chunks 2 mixedEntries).getD (pre.length / 2) [] ∧
        tx'.recoverSigner = none ∧
        (chunks 2 (mixedEntries.map .ok)).foldlM appendChunk .empty =
          appendSenders .empty done >>= (fun _ => .error (.fatal (.senderRecovery id))) ∧
        ((∀ r ∈ (Table.empty : Table Nat Address).rows, ∀ e ∈ mixedEntries, r.1 < e.1) →
          ∃ t', appendSenders .empty done = .ok t' ∧ t'.rows = Table.empty.rows ++ done)) :=
  foldlM_appendChunk_eq_sequential Nat.two_pos .empty mixedEntries (by decide)

end SendersStage

end Reth
