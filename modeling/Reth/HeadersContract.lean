import Reth.HeadersReentry

namespace Reth
set_option autoImplicit true

namespace Table

variable [LinearOrder K] {t : Table K V}

theorem exists_last_of_get (h : t.get k = some v) : ∃ l, t.last = some l ∧ k ≤ l.1 := by
  have hr := get_eq_some.1 h
  cases hl : t.last with
  | none => simp [last, List.getLast?_eq_none_iff.1 hl] at hr
  | some l =>
    rcases lt_of_mem_of_last hr hl with rfl | hlt
    · exact ⟨_, rfl, le_rfl⟩
    · exact ⟨l, rfl, hlt.le⟩

theorem append_of_le (hr : r ∈ t.rows) (hk : k ≤ r.1) : t.append k v = .error .write := by
  obtain ⟨l, hl, hrl⟩ := exists_last_of_get (get_eq_some.2 hr)
  exact dif_neg fun h => absurd (h l hl) (not_lt.2 (hk.trans hrl))

theorem any_walk_iff [DecidableEq W] {t : Table K W} :
    (t.walk k).any (·.2 = w) ↔ ∃ r ∈ t.rows, k ≤ r.1 ∧ r.2 = w := by
  simp only [walk, List.any_eq_true, List.mem_filter, decide_eq_true_eq, and_assoc]

theorem retain_retain (t : Table K V) (p q : K → Bool) :
    (t.retain p).retain q = t.retain fun k => q k && p k :=
  ext_rows (List.filter_filter _ _)

theorem unwindByNum_unwindByNum (t : Table Nat V) (u v : Nat) :
    (t.unwindByNum u).unwindByNum v = t.unwindByNum (min u v) := by
  simp only [unwindByNum, retain_retain, Nat.le_min, Bool.decide_and, Bool.and_comm]

theorem unwindByNumHash_unwindByNumHash (t : Table BlockNumHash V) (u v : Nat) :
    (t.unwindByNumHash u).unwindByNumHash v = t.unwindByNumHash (min u v) := by
  simp only [unwindByNumHash, retain_retain, Nat.le_min, Bool.decide_and, Bool.and_comm]

theorem mem_unwindByNum {t : Table Nat V} :
    r ∈ (t.unwindByNum n).rows ↔ r ∈ t.rows ∧ r.1 ≤ n := by
  simp [unwindByNum, retain]

theorem isSome_get_iff : (t.get k).isSome ↔ ∃ v, (k, v) ∈ t.rows := by
  simp only [Option.isSome_iff_exists, get_eq_some]

theorem next_of_last (hl : t.last = some l) : t.next l.1 = none :=
  next_eq_none.2 fun _ hr => (lt_of_mem_of_last hr hl).elim (fun h => h ▸ le_rfl) le_of_lt

end Table

namespace HeaderStage

/-! ## The total difficulty pass -/

/-- The rows the `write_td` walk appends from the total difficulty `td`: each walked header's key
with `td` plus the difficulties of the walked headers up to it. -/
def tdRows (td : Nat) : List (BlockNumHash × Header) → List (BlockNumHash × Nat)
  | [] => []
  | e :: es => (e.1, td + e.2.difficulty) :: tdRows (td + e.2.difficulty) es

theorem appendTd_of_append (h : t.append e.1 (td + e.2.difficulty) = .ok t') :
    appendTd (td, t) e = .ok (td + e.2.difficulty, t') := by
  simp only [appendTd, h]
  rfl

theorem appendTd_eq_ok (h : appendTd acc e = .ok acc') :
    acc.2.append e.1 (acc.1 + e.2.difficulty) = .ok acc'.2 := by
  obtain ⟨t, ht, h⟩ := except_bind_eq_ok.1 h
  cases h
  exact except_mapError_eq_ok.1 ht

theorem foldlM_appendTd_rows {es : List (BlockNumHash × Header)}
    {acc acc' : Nat × Table BlockNumHash Nat} (h : es.foldlM appendTd acc = .ok acc') :
    ∃ zs, acc'.2.rows = acc.2.rows ++ zs ∧ zs.map Prod.fst = es.map Prod.fst := by
  induction es generalizing acc with
  | nil =>
    cases h
    exact ⟨[], (List.append_nil _).symm, rfl⟩
  | cons e es ih =>
    rw [List.foldlM_cons] at h
    obtain ⟨acc₁, h₁, h⟩ := except_bind_eq_ok.1 h
    obtain ⟨zs, hzs, hkeys⟩ := ih h
    refine ⟨(e.1, acc.1 + e.2.difficulty) :: zs, ?_,
      by rw [List.map_cons, List.map_cons, hkeys]⟩
    rw [hzs, Table.append_rows (appendTd_eq_ok h₁), List.append_assoc, List.singleton_append]

theorem foldlM_appendTd_of_lt {es : List (BlockNumHash × Header)}
    (hes : es.Pairwise (·.1 < ·.1)) (td : Nat) (t : Table BlockNumHash Nat)
    (hlt : ∀ r ∈ t.rows, ∀ e ∈ es, r.1 < e.1) :
    ∃ td' t', es.foldlM appendTd (td, t) = .ok (td', t') ∧
      t'.rows = t.rows ++ tdRows td es := by
  induction es generalizing td t with
  | nil => exact ⟨td, t, rfl, by simp [tdRows]⟩
  | cons e es ih =>
    obtain ⟨he, hes⟩ := List.pairwise_cons.1 hes
    obtain ⟨t₁, h₁, hr₁⟩ : ∃ t₁, t.append e.1 (td + e.2.difficulty) = .ok t₁ ∧
        t₁.rows = t.rows ++ [(e.1, td + e.2.difficulty)] :=
      Table.append_of_lt fun r hr => hlt r hr e (List.mem_cons_self _ _)
    obtain ⟨td', t', h', hr'⟩ := ih hes _ t₁ fun r hr e' he' => by
      rw [hr₁] at hr
      rcases List.mem_append.1 hr with hr | hr
      · exact (hlt r hr e (List.mem_cons_self _ _)).trans (he e' he')
      · exact List.mem_singleton.1 hr ▸ he e' he'
    refine ⟨td', t', ?_, by rw [hr', hr₁, tdRows, List.append_assoc, List.singleton_append]⟩
    rw [List.foldlM_cons, appendTd_of_append h₁, except_ok_bind, h']

theorem foldlM_appendTd_of_le {es : List (BlockNumHash × Header)}
    (hes : es.Pairwise (·.1 < ·.1)) (t : Table BlockNumHash Nat)
    (hle : ∃ r ∈ t.rows, ∃ e ∈ es, e.1 ≤ r.1) :
    es.foldlM appendTd (td, t) = .error (.database .write) := by
  induction es generalizing td t with
  | nil => obtain ⟨_, _, _, he, _⟩ := hle; cases he
  | cons e es ih =>
    obtain ⟨r, hr, e', he', hle'⟩ := hle
    rcases Classical.em (∀ r ∈ t.rows, r.1 < e.1) with hlt | hlt
    · obtain ⟨t₁, h₁, hr₁⟩ : ∃ t₁, t.append e.1 (td + e.2.difficulty) = .ok t₁ ∧
          t₁.rows = t.rows ++ [(e.1, td + e.2.difficulty)] := Table.append_of_lt hlt
      rw [List.foldlM_cons, appendTd_of_append h₁, except_ok_bind]
      rcases List.mem_cons.1 he' with rfl | he'
      · exact absurd (hlt r hr) (not_lt.2 hle')
      · exact ih (List.pairwise_cons.1 hes).2 t₁
          ⟨r, hr₁ ▸ List.mem_append_left _ hr, e', he', hle'⟩
    · push_neg at hlt
      obtain ⟨r, hr, hle⟩ := hlt
      simp only [List.foldlM_cons, appendTd, Table.append_of_le hr hle]
      rfl

/-- `write_td` on any tables. It fails without the head's total difficulty, or without a
canonical block above the head. Otherwise it walks every `Headers` row from that block's key on,
side-chain rows included, and appends their running totals after the rows of `HeaderTD`; it fails
with a write error exactly when some `HeaderTD` key is not below every walked key. -/
theorem writeTd_spec (db : Tables) (head : SealedHeader) :
    (db.headerTD.get head.numHash = none →
      writeTd db head = .error (.databaseIntegrity (.totalDifficulty head.number))) ∧
    ∀ td, db.headerTD.get head.numHash = some td →
      (db.canonicalHeaders.get (head.number + 1) = none →
        writeTd db head = .error (.databaseIntegrity (.canonicalHeader (head.number + 1)))) ∧
      ∀ hash, db.canonicalHeaders.get (head.number + 1) = some hash →
        ((∀ r ∈ db.headerTD.rows, ∀ e ∈ db.headers.walk ⟨head.number + 1, hash⟩, r.1 < e.1) →
          ∃ t, writeTd db head = .ok { db with headerTD := t } ∧
            t.rows = db.headerTD.rows ++ tdRows td (db.headers.walk ⟨head.number + 1, hash⟩)) ∧
        ((∃ r ∈ db.headerTD.rows, ∃ e ∈ db.headers.walk ⟨head.number + 1, hash⟩, e.1 ≤ r.1) →
          writeTd db head = .error (.database .write)) := by
  refine ⟨fun hn => by simp only [writeTd, hn, okOr_none, except_error_bind],
    fun td htd => ⟨fun hc => ?_, fun hash hc => ⟨fun hlt => ?_, fun hle => ?_⟩⟩⟩
  · simp only [writeTd, htd, okOr_some, except_ok_bind, Tables.getBlockNumhash,
      Tables.getBlockHash, hc, Except.map, except_error_bind]
  all_goals simp only [writeTd, htd, okOr_some, except_ok_bind, Tables.getBlockNumhash,
    Tables.getBlockHash, hc, Except.map]
  · obtain ⟨_, t, ht, hrows⟩ := foldlM_appendTd_of_lt (Table.walk_sorted _ _) td _ hlt
    exact ⟨t, by rw [ht]; rfl, hrows⟩
  · rw [foldlM_appendTd_of_le (Table.walk_sorted _ _) _ hle]
    rfl

theorem writeTd_covers (h : writeTd db head = .ok db') :
    ∃ c, db.canonicalHeaders.get (head.number + 1) = some c ∧
      ∀ k, ⟨head.number + 1, c⟩ ≤ k → (db.headers.get k).isSome →
        (db'.headerTD.get k).isSome := by
  obtain ⟨td, -, h⟩ := except_bind_eq_ok.1 h
  obtain ⟨⟨n, c⟩, hkey, h⟩ := except_bind_eq_ok.1 h
  obtain ⟨acc, hacc, h⟩ := except_bind_eq_ok.1 h
  cases h
  obtain ⟨rfl, hc⟩ := Tables.getBlockNumhash_eq_ok.1 hkey
  obtain ⟨zs, hzs, hkeys⟩ := foldlM_appendTd_rows hacc
  refine ⟨c, hc, fun k hk hh => ?_⟩
  obtain ⟨v, hv⟩ := Table.isSome_get_iff.1 hh
  have hz := List.mem_map_of_mem Prod.fst (Table.mem_walk.2 ⟨hv, hk⟩)
  rw [← hkeys] at hz
  obtain ⟨z, hz', rfl⟩ := List.mem_map.1 hz
  have hr : (z.1, z.2) ∈ acc.2.rows := by
    rw [hzs]
    exact List.mem_append_right _ hz'
  exact Table.isSome_get_iff.2 ⟨z.2, hr⟩

/-! ## What `execute` returns on any tables -/

theorem updateHead_of_get {hash : H256} (hc : db.canonicalHeaders.get s = some hash)
    (htd : db.headerTD.get ⟨s, hash⟩ = some td) : updateHead db s = .ok () := by
  have hk : db.getBlockNumhash s = .ok ⟨s, hash⟩ := Tables.getBlockNumhash_eq_ok.2 ⟨rfl, hc⟩
  simp only [updateHead, hk, htd, okOr_some, except_ok_bind]
  rfl

theorem getHeadAndTip_of_next_none {stage : HeaderStage} {hash : H256}
    (hc : db.canonicalHeaders.get s = some hash)
    (hh : db.headers.get ⟨s, hash⟩ = some header) (hn : db.canonicalHeaders.next s = none) :
    stage.getHeadAndTip db s =
      .ok (⟨header, hash⟩, (stage.consensus.nextForkChoiceState hash).headBlockHash) := by
  simp only [getHeadAndTip, hc, hh, hn, okOr_some, except_ok_bind, option_mapM_none, except_pure]

theorem execute_cases (stage : HeaderStage) (db : Tables) (input : ExecInput) :
    (∃ e, (updateHead db (input.stageProgress.getD 0) = .error e ∨
        stage.getHeadAndTip db (input.stageProgress.getD 0) = .error e) ∧
      stage.execute db input = (db, .error e)) ∨
    ∃ head tip, stage.getHeadAndTip db (input.stageProgress.getD 0) = .ok (head, tip) ∧
      stage.execute db input = finish head (streamChunks (input.stageProgress.getD 0) db
        (input.stageProgress.getD 0)
        (chunks stage.commitThreshold (stage.downloader head tip))) := by
  unfold execute
  dsimp only
  generalize input.stageProgress.getD 0 = s
  cases hu : updateHead db s with
  | error e => exact .inl ⟨e, .inl rfl, by simp only [hu, except_error_bind]⟩
  | ok u =>
    cases ht : stage.getHeadAndTip db s with
    | error e => exact .inl ⟨e, .inr rfl, by simp only [hu, ht, except_ok_bind]⟩
    | ok p => exact .inr ⟨p.1, p.2, rfl, by simp only [hu, ht, except_ok_bind]⟩

theorem finish_fst (head : SealedHeader) (p : Tables × Except StageError Nat) :
    (finish head p).1 = p.1 ∨ writeTd p.1 head = .ok (finish head p).1 := by
  obtain ⟨db, r⟩ := p
  cases r with
  | error e => exact .inl rfl
  | ok cur =>
    cases hw : writeTd db head with
    | error e => exact .inl (by rw [finish_of_writeTd_error hw])
    | ok db' => exact .inr (by rw [finish_of_writeTd_ok hw])

theorem execute_fst (stage : HeaderStage) (db : Tables) (input : ExecInput) :
    ∃ hs, (stage.execute db input).1 = (db.writeHeaders hs).1 ∨
      ∃ head, writeTd (db.writeHeaders hs).1 head = .ok (stage.execute db input).1 := by
  rcases execute_cases stage db input with ⟨e, -, he⟩ | ⟨head, tip, -, he⟩
  · exact ⟨[], .inl (by rw [he]; rfl)⟩
  obtain ⟨good, hg, -⟩ := streamChunks_fst (input.stageProgress.getD 0)
    (chunks stage.commitThreshold (stage.downloader head tip)) db (input.stageProgress.getD 0)
  refine ⟨good.reverse.flatten, ?_⟩
  rw [he, ← Tables.writeChunks_eq, ← hg]
  exact (finish_fst head _).imp id (⟨head, ·⟩)

theorem writeHeaders_canonical_isSome (db : Tables) (hs : List SealedHeader)
    (h : (db.canonicalHeaders.get n).isSome) :
    ((db.writeHeaders hs).1.canonicalHeaders.get n).isSome := by
  rw [Tables.writeHeaders_canonicalHeaders_get]
  split_ifs
  · exact h
  · cases (hs.find? (·.number = n)).map (·.hash) <;> simp [h]

theorem writeHeaders_latest_isSome (db : Tables) (hs : List SealedHeader)
    (h : (db.writeHeaders hs).2 = some n) :
    ((db.writeHeaders hs).1.canonicalHeaders.get n).isSome := by
  rw [Tables.writeHeaders_latest] at h
  obtain ⟨x, hx, rfl⟩ := Option.map_eq_some'.1 h
  have hx0 : x.number ≠ 0 := by simpa using List.find?_some hx
  obtain ⟨y, hy⟩ := Option.isSome_iff_exists.1 (List.find?_isSome.2
    ⟨x, List.mem_of_find?_eq_some hx, by simp⟩ : (hs.find? (·.number = x.number)).isSome)
  rw [Tables.writeHeaders_canonicalHeaders_get, if_neg hx0, hy]
  rfl

theorem streamChunks_ok (h : (streamChunks sp db cur cs).2 = .ok cur') :
    cur ≤ cur' ∧
      (cur' = cur ∨ ((streamChunks sp db cur cs).1.canonicalHeaders.get cur').isSome) ∧
      ∀ n, (db.canonicalHeaders.get n).isSome →
        ((streamChunks sp db cur cs).1.canonicalHeaders.get n).isSome := by
  induction cs generalizing db cur with
  | nil =>
    cases h
    exact ⟨le_rfl, .inl rfl, fun _ => id⟩
  | cons c cs ih =>
    cases hc : collect c with
    | error e => simp [streamChunks, hc] at h
    | ok res =>
      cases hv : validateHeaderResponse res with
      | error e => simp [streamChunks, hc, hv] at h
      | ok u =>
        simp only [streamChunks, hc, hv] at h ⊢
        obtain ⟨hle, hcur, hmono⟩ := ih h
        refine ⟨(le_max_left _ _).trans hle, ?_,
          fun n hn => hmono n (writeHeaders_canonical_isSome _ _ hn)⟩
        refine hcur.elim (fun hcur => ?_) .inr
        rcases Option.eq_none_or_eq_some (db.writeHeaders res).2 with hw | ⟨n, hw⟩
        · exact .inl (by rw [hcur, hw, Option.getD_none, Nat.max_zero])
        rcases le_total n cur with hn | hn
        · exact .inl (by rw [hcur, hw, Option.getD_some, max_eq_left hn])
        · have hm : cur' = n := by rw [hcur, hw, Option.getD_some, max_eq_right hn]
          exact .inr (by rw [hm]; exact hmono n (writeHeaders_latest_isSome _ _ hw))

theorem finish_eq_ok {p : Tables × Except StageError Nat} (h : (finish head p).2 = .ok out) :
    ∃ cur db', p.2 = .ok cur ∧ writeTd p.1 head = .ok db' ∧ finish head p =
      (db', .ok ⟨max cur ((db'.canonicalHeaders.last.map (·.1)).getD 0), true, true⟩) := by
  obtain ⟨db, r⟩ := p
  cases r with
  | error e => cases h
  | ok cur =>
    cases hw : writeTd db head with
    | error e =>
      rw [finish_of_writeTd_error hw] at h
      cases h
    | ok db' => exact ⟨cur, db', rfl, rfl, finish_of_writeTd_ok hw⟩

theorem execute_eq_ok {stage : HeaderStage} {db : Tables} {input : ExecInput}
    (h : (stage.execute db input).2 = .ok out) :
    ∃ head tip hs l, stage.getHeadAndTip db (input.stageProgress.getD 0) = .ok (head, tip) ∧
      writeTd (db.writeHeaders hs).1 head = .ok (stage.execute db input).1 ∧
      (stage.execute db input).1.canonicalHeaders.last = some l ∧
      out = ⟨l.1, true, true⟩ ∧ input.stageProgress.getD 0 ≤ l.1 := by
  rcases execute_cases stage db input with ⟨e, -, he⟩ | ⟨head, tip, ht, he⟩
  · rw [he] at h
    cases h
  rw [he] at h ⊢
  generalize input.stageProgress.getD 0 = s at ht h ⊢
  obtain ⟨good, hg, -⟩ := streamChunks_fst s
    (chunks stage.commitThreshold (stage.downloader head tip)) db s
  obtain ⟨cur, db', hr, hw, hf⟩ := finish_eq_ok h
  rw [hf] at h ⊢
  cases h
  obtain ⟨-, hcur, hmono⟩ := streamChunks_ok hr
  obtain ⟨t, rfl, -⟩ := writeTd_eq_ok hw
  rw [hg, Tables.writeChunks_eq] at hw hcur hmono ⊢
  refine ⟨head, tip, good.reverse.flatten, ?_⟩
  generalize (db.writeHeaders good.reverse.flatten).1 = db₁ at hw hcur hmono ⊢
  -- every canonical block is at most the last one, the head's block among them
  obtain ⟨v, hv⟩ :=
    Option.isSome_iff_exists.1 (hmono s (by rw [(getHeadAndTip_head ht).1]; rfl))
  obtain ⟨l, hl, hsl⟩ := Table.exists_last_of_get hv
  have hcl : ∀ n, (db₁.canonicalHeaders.get n).isSome → n ≤ l.1 := fun n hn => by
    obtain ⟨v', hv'⟩ := Option.isSome_iff_exists.1 hn
    obtain ⟨l', hl', hnl⟩ := Table.exists_last_of_get hv'
    rw [hl] at hl'
    cases hl'
    exact hnl
  have hmax : max cur l.1 = l.1 := max_eq_right (hcur.elim (fun h => h ▸ hsl) (hcl cur))
  refine ⟨l, ht, hw, hl, ?_, hsl⟩
  simp only [hl, Option.map_some', Option.getD_some, hmax]

/-- Every `execute` that returns `Ok`, on any tables, input and downloader, reports `done` and
`reached_tip`, and as its progress the highest block of `CanonicalHeaders` in the tables it
leaves, at least the progress it started from. -/
theorem execute_ok_last_canonical (stage : HeaderStage) (db : Tables) (input : ExecInput)
    (h : (stage.execute db input).2 = .ok out) :
    out.done = true ∧ out.reachedTip = true ∧ input.stageProgress.getD 0 ≤ out.stageProgress ∧
      (stage.execute db input).1.canonicalHeaders.last.map (·.1) = some out.stageProgress := by
  obtain ⟨head, tip, hs, l, -, -, hl, rfl, hsl⟩ := execute_eq_ok h
  exact ⟨rfl, rfl, hsl, by rw [hl]; rfl⟩

theorem execute_ok_last_canonical_linear :
    true = true ∧ true = true ∧ (⟨none, some 0⟩ : ExecInput).stageProgress.getD 0 ≤ 1 ∧
      ((linearStage 1 Nat.one_pos).execute genesisDb ⟨none, some 0⟩).1.canonicalHeaders.last.map
        (·.1) = some 1 :=
  execute_ok_last_canonical (linearStage 1 Nat.one_pos) genesisDb ⟨none, some 0⟩
    (show ((linearStage 1 Nat.one_pos).execute genesisDb ⟨none, some 0⟩).2 = .ok ⟨1, true, true⟩
      from rfl)

/-- What an error of `execute` from progress `s` can be: a validation error names `s`, not the
header that failed; a recoverable error never carries a header the downloader rejected; a stage
progress error names `s`; a download error carries a pair of headers that are not linked; a
database error may be any failure of the store; no error is fatal. -/
def ExecuteError (s : Nat) : StageError → Prop
  | .validation block _ => block = s
  | .download (.mismatchedHeaders _ _ _ _) => True
  | .download _ => False
  | .database _ => True
  | .databaseIntegrity _ => True
  | .stageProgress progress => progress = s
  | .recoverable (.headerValidation _ _) => False
  | .recoverable _ => True
  | .fatal _ => False

theorem updateHead_error (h : updateHead db s = .error e) : ∃ d, e = .databaseIntegrity d := by
  rcases except_bind_eq_error.1 h with h | ⟨k, -, h⟩
  · unfold Tables.getBlockNumhash Tables.getBlockHash at h
    split at h <;> cases h
    exact ⟨_, rfl⟩
  · cases hg : db.headerTD.get k <;> simp [hg] at h
    exact ⟨_, h.symm⟩

theorem getHeadAndTip_error {stage : HeaderStage} (h : stage.getHeadAndTip db s = .error e) :
    (∃ d, e = .databaseIntegrity d) ∨ e = .stageProgress s := by
  unfold getHeadAndTip at h
  cases hc : db.canonicalHeaders.get s with
  | none =>
    simp only [hc, okOr_none, except_error_bind, Except.error.injEq] at h
    exact .inl ⟨_, h.symm⟩
  | some hash =>
  cases hh : db.headers.get ⟨s, hash⟩ with
  | none =>
    simp only [hc, hh, okOr_some, okOr_none, except_ok_bind, except_error_bind,
      Except.error.injEq] at h
    exact .inl ⟨_, h.symm⟩
  | some header =>
  simp only [hc, hh, okOr_some, except_ok_bind] at h
  rcases except_bind_eq_error.1 h with h | ⟨n, -, h⟩
  · cases hn : db.canonicalHeaders.next s with
    | none => simp [hn] at h
    | some next =>
      cases hg : db.headers.get ⟨next.1, next.2⟩ <;> simp [hn, hg, Option.mapM] at h
      exact .inl ⟨_, h.symm⟩
  · split at h
    · split_ifs at h
      · cases h
      · cases h
        exact .inr rfl
    · cases h

theorem validateHeaderResponse_mismatched :
    ∀ hs : List SealedHeader, validateHeaderResponse hs = .error e →
      ∃ n h n' h', e = .download (.mismatchedHeaders n h n' h')
  | [] | [_] => nofun
  | header :: parent :: rest => by
    rw [validateHeaderResponse]
    unfold ensureParent
    split_ifs
    · exact validateHeaderResponse_mismatched (parent :: rest)
    · simp only [Except.mapError, except_error_bind, Except.error.injEq]
      exact fun h => ⟨_, _, _, _, h.symm⟩

theorem streamChunks_error (h : (streamChunks sp db cur cs).2 = .error e) : ExecuteError sp e := by
  induction cs generalizing db cur with
  | nil => cases h
  | cons c cs ih =>
    cases hc : collect c with
    | error d =>
      simp only [streamChunks, hc, Except.error.injEq] at h
      subst h
      cases d <;> simp [downloadError, ExecuteError]
    | ok res =>
      cases hv : validateHeaderResponse res with
      | error d =>
        simp only [streamChunks, hc, hv, Except.error.injEq] at h
        obtain ⟨_, _, _, _, rfl⟩ := validateHeaderResponse_mismatched res hv
        subst h
        trivial
      | ok u =>
        simp only [streamChunks, hc, hv] at h
        exact ih h

theorem finish_error {p : Tables × Except StageError Nat} (h : (finish head p).2 = .error e) :
    p.2 = .error e ∨ ∃ cur, p.2 = .ok cur ∧ writeTd p.1 head = .error e := by
  obtain ⟨db, r⟩ := p
  cases r with
  | error e' =>
    cases h
    exact .inl rfl
  | ok cur => exact .inr ⟨cur, rfl, writeTd_of_finish h⟩

/-- Every error of `execute`, on any tables, input and downloader, is one `ExecuteError` allows
at the progress it started from. -/
theorem execute_error_cases (stage : HeaderStage) (db : Tables) (input : ExecInput)
    (h : (stage.execute db input).2 = .error e) :
    ExecuteError (input.stageProgress.getD 0) e := by
  rcases execute_cases stage db input with ⟨e', hu | hg, he⟩ | ⟨head, tip, -, he⟩
  · rw [he] at h
    cases h
    obtain ⟨d, rfl⟩ := updateHead_error hu
    trivial
  · rw [he] at h
    cases h
    rcases getHeadAndTip_error hg with ⟨d, rfl⟩ | rfl <;> trivial
  · rw [he] at h
    rcases finish_error h with hr | ⟨cur, -, hw⟩
    · exact streamChunks_error hr
    · rcases writeTd_error hw with ⟨d, rfl⟩ | rfl <;> trivial

theorem execute_error_cases_timeout : ExecuteError 0 (.recoverable .timeout) :=
  execute_error_cases timeoutStage genesisDb ⟨none, some 0⟩
    (show (timeoutStage.execute genesisDb ⟨none, some 0⟩).2 = .error (.recoverable .timeout)
      from rfl)

/-! ## Unwinds compose -/

/-- Two unwinds are one: on any tables, unwinding to `u` and then to `v` leaves what one unwind
to the lower of the two leaves; an unwind repeated changes nothing. -/
theorem unwind_unwind (db : Tables) (u v : Nat) :
    (unwind (unwind db ⟨u⟩).2 ⟨v⟩).2 = (unwind db ⟨min u v⟩).2 := by
  apply Tables.ext
  case headerNumbers =>
    refine Table.ext_get fun x => ?_
    -- the hashes the two walks drop are those canonical above the lower block
    have hiff : ((db.canonicalHeaders.unwindByNum u).walk (v + 1)).any (·.2 = x) ∨
        (db.canonicalHeaders.walk (u + 1)).any (·.2 = x) ↔
        (db.canonicalHeaders.walk (min u v + 1)).any (·.2 = x) := by
      simp only [Table.any_walk_iff, Table.mem_unwindByNum]
      constructor
      · rintro (⟨r, ⟨hr, -⟩, hv, hx⟩ | ⟨r, hr, hu, hx⟩)
        · exact ⟨r, hr, by omega, hx⟩
        · exact ⟨r, hr, by omega, hx⟩
      · rintro ⟨r, hr, hm, hx⟩
        by_cases hu : u + 1 ≤ r.1
        · exact .inr ⟨r, hr, hu, hx⟩
        · exact .inl ⟨r, ⟨hr, by omega⟩, by omega, hx⟩
    simp only [unwind, Table.get_unwindByWalker]
    by_cases hA : ((db.canonicalHeaders.unwindByNum u).walk (v + 1)).any (·.2 = x)
    · rw [if_pos hA, if_pos (hiff.1 (.inl hA))]
    by_cases hB : (db.canonicalHeaders.walk (u + 1)).any (·.2 = x)
    · rw [if_neg hA, if_pos hB, if_pos (hiff.1 (.inr hB))]
    · rw [if_neg hA, if_neg hB, if_neg fun hC => (hiff.2 hC).elim hA hB]
  -- the tables kept by number: two bounds are the lower one
  all_goals simp only [unwind, Table.unwindByNum_unwindByNum, Table.unwindByNumHash_unwindByNumHash]

end HeaderStage

end Reth
