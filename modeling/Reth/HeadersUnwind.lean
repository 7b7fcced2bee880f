import Reth.HeadersStream

namespace Reth
set_option autoImplicit true

namespace HeaderStage

theorem streamChunks_fst (sp : Nat) (cs : List (List (Except DownloadError SealedHeader)))
    (db : Tables) (cur : Nat) :
    ∃ good : List (List SealedHeader), (streamChunks sp db cur cs).1 = db.writeChunks good ∧
      ∀ c ∈ good, ∀ h ∈ c, ∃ c' ∈ cs, .ok h ∈ c' := by
  induction cs generalizing db cur with
  | nil => exact ⟨[], rfl, by simp⟩
  | cons c cs ih =>
    cases hc : collect c with
    | error e => exact ⟨[], by simp [streamChunks, hc, Tables.writeChunks], by simp⟩
    | ok res =>
      cases hv : validateHeaderResponse res with
      | error e => exact ⟨[], by simp [streamChunks, hc, hv, Tables.writeChunks], by simp⟩
      | ok u =>
        obtain ⟨good, hg, hmem⟩ := ih (db.writeHeaders res).1
          (max cur ((db.writeHeaders res).2.getD 0))
        refine ⟨res :: good, ?_, ?_⟩
        · simp only [streamChunks, hc, hv]
          exact hg
        · intro c' hc' h hh
          rcases List.mem_cons.1 hc' with rfl | hc'
          · exact ⟨c, List.mem_cons_self _ _, mem_of_collect_eq_ok hc hh⟩
          · obtain ⟨c'', hc'', hh'⟩ := hmem c' hc' h hh
            exact ⟨c'', List.mem_cons_of_mem _ hc'', hh'⟩

theorem getHeadAndTip_head {stage : HeaderStage} {db : Tables} {head : SealedHeader}
    (h : stage.getHeadAndTip db s = .ok (head, tip)) :
    db.canonicalHeaders.get s = some head.hash ∧
      db.headers.get ⟨s, head.hash⟩ = some head.header := by
  unfold getHeadAndTip at h
  cases hc : db.canonicalHeaders.get s with
  | none => simp [hc] at h
  | some hash =>
    cases hh : db.headers.get ⟨s, hash⟩ with
    | none => simp [hc, hh] at h
    | some header =>
      simp only [hc, hh, okOr_some, except_ok_bind] at h
      obtain ⟨n, -, h⟩ := except_bind_eq_ok.1 h
      split at h
      · split_ifs at h; cases h; exact ⟨rfl, hh⟩
      · cases h; exact ⟨rfl, hh⟩

theorem foldlM_appendTd_get {acc acc' : Nat × Table BlockNumHash Nat}
    (entries : List (BlockNumHash × Header))
    (h : entries.foldlM appendTd acc = .ok acc') (hk : ∀ r ∈ entries, r.1 ≠ k) :
    acc'.2.get k = acc.2.get k := by
  induction entries generalizing acc with
  | nil => cases h; rfl
  | cons r entries ih =>
    rw [List.foldlM_cons] at h
    obtain ⟨acc₁, h₁, h⟩ := except_bind_eq_ok.1 h
    rw [ih h fun r' hr' => hk r' (List.mem_cons_of_mem _ hr')]
    obtain ⟨t, ht, h₁⟩ := except_bind_eq_ok.1 h₁
    cases ha : acc.2.append r.1 (acc.1 + r.2.difficulty) with
    | error e => simp [ha, Except.mapError] at ht
    | ok t' =>
      simp only [ha, Except.mapError, Except.ok.injEq] at ht
      cases ht
      cases h₁
      rw [Table.append_eq_put ha, Table.get_put, if_neg (Ne.symm (hk r (List.mem_cons_self _ _)))]

theorem writeTd_eq_ok {db db' : Tables} {head : SealedHeader} (h : writeTd db head = .ok db') :
    ∃ t, db' = { db with headerTD := t } ∧
      ∀ k : BlockNumHash, k.number ≤ head.number → t.get k = db.headerTD.get k := by
  obtain ⟨td, -, h⟩ := except_bind_eq_ok.1 h
  obtain ⟨key, hkey, h⟩ := except_bind_eq_ok.1 h
  obtain ⟨acc, hacc, h⟩ := except_bind_eq_ok.1 h
  cases h
  refine ⟨acc.2, rfl, fun k hk => foldlM_appendTd_get _ hacc fun r hr he => ?_⟩
  have hle := (Table.mem_walk.1 hr).2
  rw [he, BlockNumHash.le_iff, (Tables.getBlockNumhash_eq_ok.1 hkey).1] at hle
  omega

theorem unwind_eq_of_agree {db db' : Tables}
    (hc : ∀ n, s < n → db.canonicalHeaders.get n = none)
    (hh : ∀ k : BlockNumHash, s < k.number → db.headers.get k = none)
    (htd : ∀ k : BlockNumHash, s < k.number → db.headerTD.get k = none)
    (hc' : ∀ n ≤ s, db'.canonicalHeaders.get n = db.canonicalHeaders.get n)
    (hh' : ∀ k : BlockNumHash, k.number ≤ s → db'.headers.get k = db.headers.get k)
    (htd' : ∀ k : BlockNumHash, k.number ≤ s → db'.headerTD.get k = db.headerTD.get k)
    (hnew : ∀ n x, s < n → db'.canonicalHeaders.get n = some x →
      db.headerNumbers.get x = none)
    (hnum : ∀ x, db'.headerNumbers.get x ≠ db.headerNumbers.get x →
      ∃ n, s < n ∧ db'.canonicalHeaders.get n = some x)
    (hrest : db'.blockBodies = db.blockBodies ∧ db'.transactions = db.transactions ∧
      db'.txSenders = db.txSenders) :
    (unwind db' ⟨s⟩).2 = db := by
  obtain ⟨hb, ht, hs⟩ := hrest
  apply Tables.ext
  · refine Table.ext_get fun n => ?_
    simp only [unwind, Table.get_unwindByNum]
    split_ifs with hn
    · exact hc' n hn
    · exact (hc n (by omega)).symm
  · refine Table.ext_get fun x => ?_
    simp only [unwind, Table.get_unwindByWalker, List.any_eq_true, decide_eq_true_eq]
    split_ifs with ha
    · obtain ⟨r, hr, rfl⟩ := ha
      obtain ⟨hr, hle⟩ := Table.mem_walk.1 hr
      exact (hnew r.1 r.2 (by omega) (Table.get_eq_some.2 hr)).symm
    · by_contra hne
      obtain ⟨n, hn, hg⟩ := hnum x hne
      exact ha ⟨(n, x), Table.mem_walk.2 ⟨Table.get_eq_some.1 hg, hn⟩, rfl⟩
  · refine Table.ext_get fun k => ?_
    simp only [unwind, Table.get_unwindByNumHash]
    split_ifs with hk
    · exact hh' k hk
    · exact (hh k (by omega)).symm
  · refine Table.ext_get fun k => ?_
    simp only [unwind, Table.get_unwindByNumHash]
    split_ifs with hk
    · exact htd' k hk
    · exact (htd k (by omega)).symm
  · exact hb
  · exact ht
  · exact hs

theorem writeHeaders_agree (db : Tables) {W : List SealedHeader}
    (hW : ∀ h ∈ W, s < h.number ∧ db.headerNumbers.get h.hash = none)
    (hfun : ∀ h₁ ∈ W, ∀ h₂ ∈ W, h₁.number = h₂.number → h₁.hash = h₂.hash)
    (hc : ∀ n, s < n → db.canonicalHeaders.get n = none) :
    (∀ n ≤ s, (db.writeHeaders W).1.canonicalHeaders.get n = db.canonicalHeaders.get n) ∧
    (∀ k : BlockNumHash, k.number ≤ s →
      (db.writeHeaders W).1.headers.get k = db.headers.get k) ∧
    (∀ n x, s < n → (db.writeHeaders W).1.canonicalHeaders.get n = some x →
      db.headerNumbers.get x = none) ∧
    (∀ x, (db.writeHeaders W).1.headerNumbers.get x ≠ db.headerNumbers.get x →
      ∃ n, s < n ∧ (db.writeHeaders W).1.canonicalHeaders.get n = some x) := by
  refine ⟨fun n hn => ?_, fun k hk => ?_, fun n x hn hx => ?_, fun x hx => ?_⟩
  · rw [Tables.writeHeaders_canonicalHeaders_get, List.find?_eq_none.2 fun h hh => by
      have := (hW h hh).1; simp only [decide_eq_true_eq]; omega]
    simp
  · rw [Tables.writeHeaders_headers_get, List.find?_eq_none.2 fun h hh => by
      have := (hW h hh).1; simp only [decide_eq_true_eq]; rintro rfl
      exact absurd hk (by simp only [SealedHeader.numHash]; omega)]
    simp
  · rw [Tables.writeHeaders_canonicalHeaders_get, if_neg (by omega), hc n hn, Option.or_none] at hx
    obtain ⟨h, hf, rfl⟩ := Option.map_eq_some'.1 hx
    exact (hW h (List.mem_of_find?_eq_some hf)).2
  · rw [Tables.writeHeaders_headerNumbers_get] at hx
    cases hf : W.find? (fun h => h.hash = x ∧ h.number ≠ 0) with
    | none => rw [hf] at hx; simp at hx
    | some h =>
      have hmem := List.mem_of_find?_eq_some hf
      have hp := List.find?_some hf
      simp only [decide_eq_true_eq] at hp
      obtain ⟨rfl, -⟩ := hp
      refine ⟨h.number, (hW h hmem).1, ?_⟩
      rw [Tables.writeHeaders_canonicalHeaders_get, if_neg (by have := (hW h hmem).1; omega)]
      cases hf' : W.find? (·.number = h.number) with
      | none => exact absurd hmem fun hm => by simpa using List.find?_eq_none.1 hf' h hm
      | some h' =>
        have hn := List.find?_some hf'
        simp only [decide_eq_true_eq] at hn
        simp [hfun h' (List.mem_of_find?_eq_some hf') h hmem hn]

/-- From a database with no header row above `s`, whose stored headers carry the numbers of their
keys, when every header the downloader yields is above `s`, has a hash `HeaderNumbers` does not
hold, and shares its number with no header of another hash, `unwind` to `s` after `execute` from
`s` gives back the database, whether `execute` succeeded or failed after any number of committed
chunks. -/
theorem execute_unwind_restores (stage : HeaderStage) (hs : input.stageProgress = some s)
    (hc : ∀ n, s < n → db.canonicalHeaders.get n = none)
    (hh : ∀ k : BlockNumHash, s < k.number → db.headers.get k = none)
    (htd : ∀ k : BlockNumHash, s < k.number → db.headerTD.get k = none)
    (hnumber : ∀ k header, db.headers.get k = some header → header.number = k.number)
    (hfresh : ∀ head tip h, .ok h ∈ stage.downloader head tip →
      s < h.number ∧ db.headerNumbers.get h.hash = none)
    (hfun : ∀ head tip h₁ h₂, .ok h₁ ∈ stage.downloader head tip →
      .ok h₂ ∈ stage.downloader head tip → h₁.number = h₂.number →
      h₁.hash = h₂.hash) :
    (unwind (stage.execute db input).1 ⟨s⟩).2 = db := by
  cases hht : updateHead db s >>= fun () => stage.getHeadAndTip db s with
  | error e =>
    simp only [execute, hs, Option.getD_some, hht]
    exact unwind_eq_of_agree hc hh htd (fun _ _ => rfl) (fun _ _ => rfl) (fun _ _ => rfl)
      (fun n x hn hx => by rw [hc n hn] at hx; cases hx) (fun x hx => absurd rfl hx)
      ⟨rfl, rfl, rfl⟩
  | ok ht =>
    obtain ⟨head, tip⟩ := ht
    obtain ⟨u, hu, hgt⟩ := except_bind_eq_ok.1 hht
    rw [execute_of_headAndTip stage hs hu hgt]
    have hnum : head.number = s := hnumber _ _ (getHeadAndTip_head hgt).2
    obtain ⟨good, hg, hmem⟩ := streamChunks_fst s
      (chunks stage.commitThreshold (stage.downloader head tip)) db s
    have hW : ∀ h ∈ good.reverse.flatten, .ok h ∈ stage.downloader head tip := fun h hh => by
      obtain ⟨c, hc, hh⟩ := List.mem_flatten.1 hh
      obtain ⟨c', hc', hh'⟩ := hmem c (List.mem_reverse.1 hc) h hh
      exact mem_of_mem_chunks stage.commitThreshold_pos hc' hh'
    obtain ⟨hc', hh', hnew, hnumbers⟩ := writeHeaders_agree db
      (fun h hh => hfresh head tip h (hW h hh))
      (fun h₁ h₁m h₂ h₂m => hfun head tip h₁ h₂ (hW h₁ h₁m) (hW h₂ h₂m)) hc
    obtain ⟨htd', hb, ht, hsd⟩ := Tables.writeHeaders_frame db good.reverse.flatten
    have key (t : Table BlockNumHash Nat)
        (ht' : ∀ k : BlockNumHash, k.number ≤ s → t.get k = db.headerTD.get k) :
        (unwind { (db.writeHeaders good.reverse.flatten).1 with headerTD := t } ⟨s⟩).2 = db :=
      unwind_eq_of_agree hc hh htd hc' hh' ht' hnew hnumbers ⟨hb, ht, hsd⟩
    rw [Tables.writeChunks_eq] at hg
    generalize streamChunks s db s (chunks stage.commitThreshold (stage.downloader head tip)) = p
      at hg ⊢
    obtain ⟨dbs, r⟩ := p
    subst hg
    have hkeep := key (db.writeHeaders good.reverse.flatten).1.headerTD fun k _ => by rw [htd']
    cases r with
    | error e => exact hkeep
    | ok cur =>
      simp only [finish]
      cases hw : writeTd (db.writeHeaders good.reverse.flatten).1 head with
      | error e => exact hkeep
      | ok db'' =>
        obtain ⟨t, rfl, ht''⟩ := writeTd_eq_ok hw
        exact key t fun k hk => by rw [ht'' k (hnum ▸ hk), htd']

theorem execute_unwind_restores_timeout :
    (unwind (timeoutStage.execute genesisDb ⟨none, some 0⟩).1 ⟨0⟩).2 = genesisDb :=
  execute_unwind_restores timeoutStage rfl
    (fun n hn => Table.get_eq_none.2 fun v hv => by simp [genesisDb] at hv; omega)
    (fun k hk => Table.get_eq_none.2 fun v hv => by
      simp only [genesisDb, List.mem_singleton, Prod.mk.injEq] at hv; rw [hv.1] at hk; cases hk)
    (fun k hk => Table.get_eq_none.2 fun v hv => by
      simp only [genesisDb, List.mem_singleton, Prod.mk.injEq] at hv; rw [hv.1] at hk; cases hk)
    (fun k header hg => by
      simp only [genesisDb, Table.get_eq_some, List.mem_singleton, Prod.mk.injEq] at hg
      rw [hg.1, hg.2]; rfl)
    (fun _ _ h hh => by
      simp only [timeoutStage, fixedStage, List.mem_cons, Except.ok.injEq, reduceCtorEq,
        List.not_mem_nil, or_false, false_or] at hh
      subst hh; exact ⟨by decide, rfl⟩)
    (fun _ _ h₁ h₂ h₁m h₂m _ => by
      simp only [timeoutStage, fixedStage, List.mem_cons, Except.ok.injEq, reduceCtorEq,
        List.not_mem_nil, or_false, false_or] at h₁m h₂m
      rw [h₁m, h₂m])

end HeaderStage

end Reth
