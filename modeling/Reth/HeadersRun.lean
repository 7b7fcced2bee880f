import Reth.HeadersChain
import Mathlib.Logic.Relation

namespace Reth
set_option autoImplicit true

/-- The header tables at progress `p` on a chain: blocks `0..p` are the chain's, with their total
difficulties from the genesis total difficulty `g`; above `p` the tables hold only the chain's
blocks `l..u` (none when `u < l`), committed by calls that failed before their total difficulty
pass, and no total difficulty. -/
structure HeadersAt (c : Chain) (g : Nat) (db : Tables) (p l u : Nat) : Prop where
  canonical_le : ∀ n ≤ p, db.canonicalHeaders.get n = some (c.hash n)
  headers_le : ∀ n ≤ p, db.headers.get (c.key n) = some (c.header n).header
  numbers_le : ∀ n ≤ p, db.headerNumbers.get (c.hash n) = some n
  td_le : ∀ n ≤ p, db.headerTD.get (c.key n) = some (c.td g n)
  lt_run : p < l
  canonical_gt : ∀ n, p < n →
    db.canonicalHeaders.get n = if l ≤ n ∧ n ≤ u then some (c.hash n) else none
  headers_gt : ∀ k : BlockNumHash, p < k.number → db.headers.get k =
    if l ≤ k.number ∧ k.number ≤ u ∧ k = c.key k.number then some (c.header k.number).header
    else none
  numbers_run : ∀ n, l ≤ n → n ≤ u → db.headerNumbers.get (c.hash n) = some n
  td_gt : ∀ k : BlockNumHash, p < k.number → db.headerTD.get k = none

namespace HeadersAt

variable {c : Chain} {g : Nat} {db : Tables} {p l u : Nat}

theorem canonical_eq (h : HeadersAt c g db p l u) (hx : db.canonicalHeaders.get n = some x) :
    x = c.hash n := by
  by_cases hn : n ≤ p
  · rw [h.canonical_le n hn] at hx; exact (Option.some.inj hx).symm
  · rw [h.canonical_gt n (by omega)] at hx
    split_ifs at hx
    exact (Option.some.inj hx).symm

theorem write_top (h : HeadersAt c g db p l u) (hpt : p ≤ t) (hadj : u < l ∨ t + 1 = l)
    (hm : m ≤ t - p) :
    HeadersAt c g (db.writeHeaders ((topHeights t m).map c.header)).1 p (t + 1 - m)
      (if u < l then t else u) := by
  have hmem : ∀ n, n ∈ topHeights t m ↔ t + 1 - m ≤ n ∧ n ≤ t :=
    fun n => mem_topHeights (by omega)
  have hl := h.lt_run
  obtain ⟨htd, -, -, -⟩ := Tables.writeHeaders_frame db ((topHeights t m).map c.header)
  -- the new run's ends, with the arithmetic facts every case needs
  have hv : (u < l ∧ (if u < l then t else u) = t) ∨
      (l ≤ u ∧ t + 1 = l ∧ (if u < l then t else u) = u) := by
    by_cases hul : u < l
    · exact .inl ⟨hul, if_pos hul⟩
    · exact .inr ⟨by omega, hadj.resolve_left hul, if_neg hul⟩
  have ha : p < t + 1 - m ∧ t + 1 - m + m = t + 1 := by omega
  generalize t + 1 - m = a at hmem ha ⊢
  generalize (if u < l then t else u) = v at hv ⊢
  clear hm hpt hadj
  constructor
  · intro n hn
    simp only [Tables.writeHeaders_chain_canonical, hmem]
    rw [if_neg (by omega), h.canonical_le n hn]
  · intro n hn
    simp only [Tables.writeHeaders_chain_headers, hmem]
    rw [if_neg (by simp only [Chain.key]; omega), h.headers_le n hn]
  · intro n hn
    simp only [Tables.writeHeaders_chain_numbers, hmem]
    rw [if_neg (by omega), h.numbers_le n hn]
  · intro n hn
    rw [htd, h.td_le n hn]
  · omega
  · intro n hn
    simp only [Tables.writeHeaders_chain_canonical, hmem, h.canonical_gt n hn]
    split_ifs <;> first | rfl | (exfalso; omega)
  · intro k hk
    simp only [Tables.writeHeaders_chain_headers, hmem, h.headers_gt k hk]
    by_cases hkey : k = c.key k.number
    · simp only [eq_true hkey, and_true]
      split_ifs <;> first | rfl | (exfalso; omega)
    · simp only [eq_false hkey, and_false, if_false]
  · intro n hl' hu'
    simp only [Tables.writeHeaders_chain_numbers, hmem]
    split_ifs <;> first | rfl | exact h.numbers_run n (by omega) (by omega)
  · intro k hk
    rw [htd, h.td_gt k hk]

theorem updateHead_ok (h : HeadersAt c g db p l u) : HeaderStage.updateHead db p = .ok () := by
  have hk : db.getBlockNumhash p = .ok (c.key p) :=
    Tables.getBlockNumhash_eq_ok.2 ⟨rfl, h.canonical_le p le_rfl⟩
  simp only [HeaderStage.updateHead, hk, h.td_le p le_rfl, okOr_some, except_ok_bind]
  rfl

theorem next_canonical (h : HeadersAt c g db p l u) :
    db.canonicalHeaders.next p = if u < l then none else some (l, c.hash l) := by
  have hl := h.lt_run
  split_ifs with hul
  · refine Table.next_eq_none.2 fun r hr => not_lt.1 fun hgt => ?_
    have hg := h.canonical_gt r.1 hgt
    rw [Table.get_eq_some.2 hr] at hg
    split_ifs at hg with hh
    omega
  · refine Table.next_eq_some (Table.get_eq_some.1 ?_) hl fun r hr hpr => ?_
    · rw [h.canonical_gt l hl, if_pos ⟨le_rfl, by omega⟩]
    · have hg := h.canonical_gt r.1 hpr
      rw [Table.get_eq_some.2 hr] at hg
      split_ifs at hg with hh
      exact hh.1

theorem getHeadAndTip_eq (h : HeadersAt c g db p l u) (stage : HeaderStage) :
    stage.getHeadAndTip db p =
      if u < l then .ok (c.header p, (stage.consensus.nextForkChoiceState (c.hash p)).headBlockHash)
      else if l = p + 1 then .error (.stageProgress p) else .ok (c.header p, c.hash (l - 1)) := by
  have hl := h.lt_run
  unfold HeaderStage.getHeadAndTip
  simp only [h.canonical_le p le_rfl, okOr_some, except_ok_bind,
    show (⟨p, c.hash p⟩ : BlockNumHash) = c.key p from rfl, h.headers_le p le_rfl,
    h.next_canonical, Chain.header_eq_mk]
  split_ifs with hul hlp
  · rfl
  · subst hlp
    have hg : db.headers.get ⟨p + 1, c.hash (p + 1)⟩ = some (c.header (p + 1)).header := by
      rw [h.headers_gt ⟨p + 1, c.hash (p + 1)⟩ hl,
        if_pos ⟨le_rfl, by simp only; omega, rfl⟩]
    simp only [option_mapM_some, hg, okOr_some, except_ok_bind, except_pure,
      Chain.number_header', ne_eq, not_true_eq_false, if_false]
  · have hg : db.headers.get ⟨l, c.hash l⟩ = some (c.header l).header := by
      rw [h.headers_gt ⟨l, c.hash l⟩ hl, if_pos ⟨le_rfl, by simp only; omega, rfl⟩]
    have hne : p + 1 ≠ l := by omega
    simp only [option_mapM_some, hg, okOr_some, except_ok_bind, except_pure,
      Chain.number_header', hne, ne_eq, not_false_eq_true, if_true,
      Chain.parentHash_header' (show 0 < l by omega)]

theorem walk_run (h : HeadersAt c g db p (p + 1) u) :
    db.headers.walk (c.key (p + 1)) =
      (List.range' (p + 1) (u - p)).map fun n => (c.key n, (c.header n).header) := by
  refine Table.eq_of_sorted_of_mem_iff (Table.walk_sorted _ _)
    (List.pairwise_map.2 ((List.pairwise_lt_range' _ _).imp Chain.key_lt_key.2)) fun r => ?_
  rw [Table.mem_walk, List.mem_map]
  constructor
  · rintro ⟨hr, hle⟩
    have hnum : p < r.1.number := by
      rcases BlockNumHash.le_iff.1 hle with h' | ⟨h', -⟩ <;>
        simp only [Chain.key] at h' <;> omega
    have hg := h.headers_gt r.1 hnum
    rw [Table.get_eq_some.2 hr] at hg
    split_ifs at hg with hh
    obtain ⟨h₁, h₂, h₃⟩ := hh
    exact ⟨r.1.number, List.mem_range'_1.2 ⟨h₁, by omega⟩,
      Prod.ext h₃.symm (Option.some.inj hg).symm⟩
  · rintro ⟨n, hn, rfl⟩
    rw [List.mem_range'_1] at hn
    refine ⟨Table.get_eq_some.1 ?_, Chain.key_le_key.2 hn.1⟩
    rw [h.headers_gt (c.key n) (show p < n by omega),
      if_pos ⟨hn.1, by simp only [Chain.key]; omega, rfl⟩]
    rfl

end HeadersAt

theorem foldlM_appendTd_chain (c : Chain) (g : Nat) : ∀ (m p : Nat) (t : Table BlockNumHash Nat),
    (∀ r ∈ t.rows, r.1.number ≤ p) →
    ∃ t' : Table BlockNumHash Nat,
      ((List.range' (p + 1) m).map fun n => (c.key n, (c.header n).header)).foldlM
        HeaderStage.appendTd (c.td g p, t) = .ok (c.td g (p + m), t') ∧
      ∀ k, t'.get k = if p < k.number ∧ k.number ≤ p + m ∧ k = c.key k.number then
        some (c.td g k.number) else t.get k
  | 0, p, t, _ => ⟨t, rfl, fun k => by rw [if_neg (by omega)]⟩
  | m + 1, p, t, ht => by
    obtain ⟨t₁, ha, -⟩ :=
      Table.append_of_lt (t := t) (k := c.key (p + 1)) (v := c.td g (p + 1))
      fun r hr => BlockNumHash.lt_iff.2 (.inl (by have := ht r hr; simp only [Chain.key]; omega))
    have ht₁ := Table.append_eq_put ha
    have hrows : ∀ r ∈ t₁.rows, r.1.number ≤ p + 1 := fun r hr => by
      have hg := Table.get_eq_some.2 hr
      rw [ht₁, Table.get_put] at hg
      split_ifs at hg with hk
      · rw [hk]; rfl
      · exact (ht r (Table.get_eq_some.1 hg)).trans (Nat.le_succ p)
    obtain ⟨t', hf, hget⟩ := foldlM_appendTd_chain c g m (p + 1) t₁ hrows
    refine ⟨t', ?_, fun k => ?_⟩
    · have hstep : HeaderStage.appendTd (c.td g p, t) (c.key (p + 1), (c.header (p + 1)).header) =
          .ok (c.td g (p + 1), t₁) := by
        simp only [HeaderStage.appendTd, ← Chain.td_succ, ha, Except.mapError, except_ok_bind,
          except_pure]
      rw [List.range'_succ, List.map_cons, List.foldlM_cons, hstep, except_ok_bind, hf,
        show p + 1 + m = p + (m + 1) by omega]
    · rw [hget, ht₁, Table.get_put]
      by_cases hkey : k = c.key k.number
      · have hk : k = c.key (p + 1) ↔ k.number = p + 1 :=
          ⟨fun h => h ▸ rfl, fun h => hkey.trans (h ▸ rfl)⟩
        simp only [eq_true hkey, and_true, hk]
        split_ifs <;> first | rfl | (exfalso; omega) | (congr 2; omega)
      · have hk : k ≠ c.key (p + 1) := fun h => hkey (h ▸ rfl)
        simp only [eq_false hkey, and_false, if_false, hk]

namespace HeadersAt

variable {c : Chain} {g : Nat} {db : Tables} {p l u : Nat}

theorem writeTd_run (h : HeadersAt c g db p (p + 1) u) (hpu : p < u) :
    ∃ t, HeaderStage.writeTd db (c.header p) = .ok { db with headerTD := t } ∧
      HeadersAt c g { db with headerTD := t } u (u + 1) u := by
  have hstart : db.getBlockNumhash (p + 1) = .ok (c.key (p + 1)) :=
    Tables.getBlockNumhash_eq_ok.2 ⟨rfl, by
      rw [h.canonical_gt (p + 1) (by omega), if_pos ⟨le_rfl, by omega⟩]; rfl⟩
  obtain ⟨t', hf, hget⟩ := foldlM_appendTd_chain c g (u - p) p db.headerTD fun r hr =>
    not_lt.1 fun hgt => by
      have hg := h.td_gt r.1 hgt
      rw [Table.get_eq_some.2 hr] at hg
      cases hg
  refine ⟨t', ?_, ?_⟩
  · simp only [HeaderStage.writeTd, Chain.numHash_header, h.td_le p le_rfl, okOr_some,
      except_ok_bind, Chain.header_number, hstart, h.walk_run, hf, except_pure]
  constructor
  · intro n hn
    by_cases hnp : n ≤ p
    · exact h.canonical_le n hnp
    · rw [h.canonical_gt n (by omega), if_pos ⟨by omega, hn⟩]
  · intro n hn
    by_cases hnp : n ≤ p
    · exact h.headers_le n hnp
    · rw [h.headers_gt (c.key n) (by simp only [Chain.key]; omega),
        if_pos ⟨by simp only [Chain.key]; omega, by simp only [Chain.key]; omega, rfl⟩]
      rfl
  · intro n hn
    by_cases hnp : n ≤ p
    · exact h.numbers_le n hnp
    · exact h.numbers_run n (by omega) hn
  · intro n hn
    show t'.get (c.key n) = _
    rw [hget]
    by_cases hnp : n ≤ p
    · rw [if_neg (by simp only [Chain.key]; omega), h.td_le n hnp]
    · rw [if_pos ⟨by simp only [Chain.key]; omega, by simp only [Chain.key]; omega, rfl⟩]
      rfl
  · omega
  · intro n hn
    rw [h.canonical_gt n (by omega), if_neg (by omega), if_neg (by omega)]
  · intro k hk
    rw [h.headers_gt k (by omega), if_neg (by omega), if_neg (by omega)]
  · intro n hl hu
    omega
  · intro k hk
    show t'.get k = _
    rw [hget, if_neg (by omega), h.td_gt k (by omega)]

theorem last_canonical (h : HeadersAt c g db u (u + 1) u) :
    (db.canonicalHeaders.last.map (·.1)).getD 0 = u := by
  rw [Table.last_fst (r := (u, c.hash u)) (Table.get_eq_some.1 (h.canonical_le u le_rfl))
    fun r hr => not_lt.1 fun hgt => ?_]
  · rfl
  · have hg := h.canonical_gt r.1 hgt
    rw [Table.get_eq_some.2 hr, if_neg (by omega)] at hg
    cases hg

/-- `unwind` to a block at or below the progress leaves the chain's blocks up to it and nothing
above. -/
theorem unwind (h : HeadersAt c g db p l u) (hv : v ≤ p) :
    HeadersAt c g (HeaderStage.unwind db ⟨v⟩).2 v (v + 1) v := by
  constructor
  · intro n hn
    simp only [HeaderStage.unwind, Table.get_unwindByNum, if_pos hn]
    exact h.canonical_le n (by omega)
  · intro n hn
    simp only [HeaderStage.unwind, Table.get_unwindByNumHash]
    rw [if_pos (show (c.key n).number ≤ v from hn)]
    exact h.headers_le n (by omega)
  · intro n hn
    simp only [HeaderStage.unwind, Table.get_unwindByWalker]
    rw [if_neg, h.numbers_le n (by omega)]
    simp only [List.any_eq_true, decide_eq_true_eq, not_exists, not_and]
    intro r hr he
    obtain ⟨hr, hle⟩ := Table.mem_walk.1 hr
    have := (h.canonical_eq (Table.get_eq_some.2 hr)).symm.trans he
    rw [Chain.hash_inj] at this
    omega
  · intro n hn
    simp only [HeaderStage.unwind, Table.get_unwindByNumHash]
    rw [if_pos (show (c.key n).number ≤ v from hn)]
    exact h.td_le n (by omega)
  · omega
  · intro n hn
    simp only [HeaderStage.unwind, Table.get_unwindByNum]
    rw [if_neg (by omega), if_neg (by omega)]
  · intro k hk
    simp only [HeaderStage.unwind, Table.get_unwindByNumHash]
    rw [if_neg (by omega), if_neg (by omega)]
  · intro n hl hu
    omega
  · intro k hk
    simp only [HeaderStage.unwind, Table.get_unwindByNumHash]
    rw [if_neg (by omega)]

end HeadersAt

/-- The progress the next call starts from: the one a successful call reports, else the old one. -/
def progressAfter (p : Nat) : Except StageError ExecOutput → Nat
  | .ok out => out.stageProgress
  | .error _ => p

namespace HeadersAt

variable {c : Chain} {g : Nat} {db : Tables} {p l u : Nat}

theorem finish_descending (h : HeadersAt c g db p l u) (hpt : p < t) (hadj : u < l ∨ t + 1 = l) :
    ∃ td, (∀ cur ≤ max p t,
      HeaderStage.finish (c.header p) ((db.writeHeaders (c.descending t p)).1, .ok cur) =
        ({ (db.writeHeaders (c.descending t p)).1 with headerTD := td },
          .ok ⟨if u < l then t else u, true, true⟩)) ∧
      HeadersAt c g { (db.writeHeaders (c.descending t p)).1 with headerTD := td }
        (if u < l then t else u) ((if u < l then t else u) + 1) (if u < l then t else u) := by
  have hw := h.write_top hpt.le hadj le_rfl
  rw [show t + 1 - (t - p) = p + 1 by omega] at hw
  obtain ⟨td, hwt, hat⟩ := hw.writeTd_run (by split_ifs <;> omega)
  refine ⟨td, fun cur hcur => ?_, hat⟩
  rw [Chain.descending, HeaderStage.finish_of_writeTd_ok hwt, hat.last_canonical,
    max_eq_right (hcur.trans (by split_ifs <;> omega))]

theorem finish_below (h : HeadersAt c g db p l u) (htp : t < p) (hadj : u < l ∨ t + 1 = l) :
    ∃ e, ∀ cur,
      HeaderStage.finish (c.header p) ((db.writeHeaders (c.descending t p)).1, .ok cur) =
      (db, .error e) := by
  have hl := h.lt_run
  have hD : c.descending t p = [] := List.eq_nil_of_length_eq_zero (by simp; omega)
  obtain ⟨e, hw⟩ := HeaderStage.writeTd_of_canonical_none
    (show db.canonicalHeaders.get ((c.header p).number + 1) = none by
      rw [Chain.header_number, h.canonical_gt (p + 1) (by omega), if_neg (by omega)])
  exact ⟨e, fun cur => by
    rw [hD, Tables.writeHeaders_nil, HeaderStage.finish_of_writeTd_error hw]⟩

theorem getHeadAndTip_chain (h : HeadersAt c g db p l u) (stage : HeaderStage)
    (hcs : c.OnChain stage.consensus) :
    (l = p + 1 ∧ l ≤ u ∧ stage.getHeadAndTip db p = .error (.stageProgress p)) ∨
      ∃ t, stage.getHeadAndTip db p = .ok (c.header p, c.hash t) ∧ t ≠ p ∧
        (u < l ∨ t + 1 = l) := by
  rw [h.getHeadAndTip_eq stage]
  have hl := h.lt_run
  split_ifs with hul hlp
  · obtain ⟨t, ht⟩ := hcs (c.hash p)
    refine .inr ⟨t, by rw [ht], fun htp => ?_, .inl hul⟩
    exact stage.consensus.headBlockHash_ne (c.hash p) (htp ▸ ht)
  · exact .inl ⟨hlp, by omega, rfl⟩
  · exact .inr ⟨l - 1, rfl, by omega, .inr (by omega)⟩

/-- One `execute` from progress `p`, by a stage that serves the chain, keeps the tables on the
chain at the progress it leaves: a success reports `done` and moves the progress above `p`, to
the top of the blocks it wrote, with their total difficulties, and a failure leaves a run of
committed chunks above the progress. -/
theorem execute (h : HeadersAt c g db p l u) (stage : HeaderStage) (hd : c.Serves stage.downloader)
    (hcs : c.OnChain stage.consensus) (hs : input.stageProgress = some p) :
    (∃ l' u', HeadersAt c g (stage.execute db input).1
      (progressAfter p (stage.execute db input).2) l' u') ∧
    ∀ out, (stage.execute db input).2 = .ok out →
      p < out.stageProgress ∧ out.done = true ∧ out.reachedTip = true := by
  have hl := h.lt_run
  have hk := stage.commitThreshold_pos
  rcases h.getHeadAndTip_chain stage hcs with ⟨-, -, he⟩ | ⟨t, ht, htp, hadj⟩
  · rw [HeaderStage.execute_of_getHeadAndTip_error stage hs h.updateHead_ok he]
    exact ⟨⟨l, u, h⟩, fun _ => nofun⟩
  rw [HeaderStage.execute_of_headAndTip stage hs h.updateHead_ok ht]
  rcases hd (c.header p) t with hfull | ⟨i, e, rest, hcut⟩
  · obtain ⟨cur, hst, hcur⟩ := HeaderStage.streamChunks_descending (c := c) hk db t p
    rw [hfull, Chain.header_number, chunks_map, hst]
    rcases Nat.lt_or_gt_of_ne htp with htp | htp
    · obtain ⟨e, hf⟩ := h.finish_below htp hadj
      rw [hf cur]
      exact ⟨⟨l, u, h⟩, fun _ => nofun⟩
    · obtain ⟨td, hf, hat⟩ := h.finish_descending htp hadj
      rw [hf cur hcur]
      refine ⟨⟨_, _, hat⟩, fun out hout => ?_⟩
      cases hout
      exact ⟨show p < if u < l then t else u by split_ifs <;> omega, rfl, rfl⟩
  · obtain ⟨err, hst⟩ := HeaderStage.streamChunks_descending_cut (c := c) hk db t p i e rest
    rw [hcut, Chain.header_number, hst, HeaderStage.finish_of_error rfl, progressAfter]
    refine ⟨?_, fun _ => nofun⟩
    have hm : min i (t - p) / stage.commitThreshold * stage.commitThreshold ≤ t - p :=
      (Nat.div_mul_le_self _ _).trans (min_le_right _ _)
    rcases Nat.eq_zero_or_pos (min i (t - p) / stage.commitThreshold * stage.commitThreshold)
      with h0 | h0
    · rw [h0]
      exact ⟨l, u, h⟩
    · exact ⟨_, _, h.write_top (by omega) hadj hm⟩

end HeadersAt

/-- One call of the header stage on the tables at progress `p`: an `execute` from `p` by a stage
whose downloader serves the chain and whose consensus client publishes heads on it, the next
progress being the one a success reports; or an `unwind` to a block at or below `p`. -/
inductive HeadersStep (c : Chain) : Tables × Nat → Tables × Nat → Prop
  | execute {db : Tables} {p : Nat} {input : ExecInput} (stage : HeaderStage)
      (hd : c.Serves stage.downloader) (hcs : c.OnChain stage.consensus)
      (hs : input.stageProgress = some p) :
      HeadersStep c (db, p) ((stage.execute db input).1, progressAfter p (stage.execute db input).2)
  | unwind {db : Tables} {p v : Nat} (hv : v ≤ p) :
      HeadersStep c (db, p) ((HeaderStage.unwind db ⟨v⟩).2, v)

theorem HeadersAt.step {c : Chain} (h : HeadersAt c g x.1 x.2 l u) (hs : HeadersStep c x y) :
    ∃ l' u', HeadersAt c g y.1 y.2 l' u' := by
  cases hs with
  | execute stage hd hcs hs => exact (h.execute stage hd hcs hs).1
  | unwind hv => exact ⟨_, _, h.unwind hv⟩

theorem HeadersAt.run {c : Chain} (hr : Relation.ReflTransGen (HeadersStep c) x y)
    (h : HeadersAt c g x.1 x.2 l u) : ∃ l' u', HeadersAt c g y.1 y.2 l' u' := by
  induction hr with
  | refl => exact ⟨l, u, h⟩
  | tail _ hs ih =>
    obtain ⟨l', u', h'⟩ := ih
    exact h'.step hs

/-- The relations between the four header tables for every canonical block `1..p`, with
`hashOf` the header hash, and no total difficulty above `p`. -/
def Consistent (hashOf : Header → H256) (db : Tables) (p : Nat) : Prop :=
  (∀ n hash, 1 ≤ n → n ≤ p → db.canonicalHeaders.get n = some hash →
    ∃ header, db.headers.get ⟨n, hash⟩ = some header ∧ hashOf header = hash ∧
      db.headerNumbers.get hash = some n ∧
      db.canonicalHeaders.get (n - 1) = some header.parentHash ∧
      ∃ td, db.headerTD.get ⟨n - 1, header.parentHash⟩ = some td ∧
        db.headerTD.get ⟨n, hash⟩ = some (td + header.difficulty)) ∧
  ∀ k : BlockNumHash, p < k.number → db.headerTD.get k = none

theorem HeadersAt.consistent {c : Chain} (h : HeadersAt c g db p l u) :
    Consistent c.hashOf db p := by
  refine ⟨fun n hash h1 hn hx => ?_, h.td_gt⟩
  rw [h.canonical_le n hn, Option.some.injEq] at hx
  subst hx
  obtain ⟨m, rfl⟩ := Nat.exists_eq_add_of_le' h1
  have hpar : (c.header (m + 1)).header.parentHash = c.hash m := c.parentHash_header m
  refine ⟨_, h.headers_le _ hn, c.hashOf_header _, h.numbers_le _ hn, ?_, c.td g m, ?_, ?_⟩
  · rw [Nat.add_sub_cancel, hpar]
    exact h.canonical_le m (by omega)
  · rw [Nat.add_sub_cancel, hpar]
    exact h.td_le m (by omega)
  · exact h.td_le _ hn

/-- The chain whose block `n` has hash `100 + n` and difficulty 1; its first blocks are
`HeaderStage.genesisHeader` and `HeaderStage.childHeader`. -/
def linearChain : Chain where
  header n := ⟨⟨if n = 0 then 0 else 99 + n, n, 1⟩, 100 + n⟩
  hashOf header := 100 + header.number
  number_header _ := rfl
  parentHash_header n := by
    show (if n + 1 = 0 then 0 else 99 + (n + 1)) = 100 + n
    rw [if_neg n.succ_ne_zero]
    omega
  hashOf_header _ := rfl
  hash_injective _ _ h := Nat.add_left_cancel h

/-- A downloader that serves `linearChain` in full. -/
def linearDownloader (head : SealedHeader) (tip : H256) :
    List (Except DownloadError SealedHeader) :=
  (linearChain.descending (tip - 100) head.number).map .ok

theorem linearDownloader_servesFully : linearChain.ServesFully linearDownloader := fun head t => by
  show (linearChain.descending (100 + t - 100) head.number).map _ = _
  rw [Nat.add_sub_cancel_left]

/-- A consensus client that publishes block `n` of `linearChain`, or block `n + 1` over block
`n`. -/
def chainConsensus (n : Nat) : Consensus where
  nextForkChoiceState head := ⟨if head = 100 + n then 100 + (n + 1) else 100 + n⟩
  headBlockHash_ne_zero head := show (if head = 100 + n then 100 + (n + 1) else 100 + n) ≠ 0 by
    split_ifs <;> omega
  headBlockHash_ne head := show (if head = 100 + n then 100 + (n + 1) else 100 + n) ≠ head by
    split_ifs with h
    · rw [h]; omega
    · exact fun h' => h h'.symm

theorem chainConsensus_onChain (n : Nat) : linearChain.OnChain (chainConsensus n) := fun head =>
  if h : head = 100 + n then ⟨n + 1, if_pos h⟩ else ⟨n, if_neg h⟩

def linearConsensus : Consensus := chainConsensus 1

theorem linearConsensus_onChain : linearChain.OnChain linearConsensus := chainConsensus_onChain 1

def linearStage (k : Nat) (hk : 0 < k) : HeaderStage :=
  ⟨linearDownloader, linearConsensus, k, hk⟩

/-- From the genesis block, a call of this stage downloads blocks 3, 2 and 1 in three chunks. -/
def farStage : HeaderStage := ⟨linearDownloader, chainConsensus 3, 1, Nat.one_pos⟩

theorem genesisDb_headersAt : HeadersAt linearChain 1 HeaderStage.genesisDb 0 1 0 where
  canonical_le n hn := by obtain rfl : n = 0 := by omega
                          rfl
  headers_le n hn := by obtain rfl : n = 0 := by omega
                        rfl
  numbers_le n hn := by obtain rfl : n = 0 := by omega
                        rfl
  td_le n hn := by obtain rfl : n = 0 := by omega
                   rfl
  lt_run := Nat.one_pos
  canonical_gt n hn := by rw [if_neg (by omega)]; simp [HeaderStage.genesisDb, Table.get]; omega
  headers_gt k hk := by
    rw [if_neg (by omega)]
    obtain ⟨n, x⟩ := k
    simp only at hk
    simp [HeaderStage.genesisDb, Table.get]; omega
  numbers_run n h₁ h₂ := by omega
  td_gt k hk := by
    obtain ⟨n, x⟩ := k
    simp only at hk
    simp [HeaderStage.genesisDb, Table.get]; omega

/-- Over every run of `execute` and `unwind` calls from tables holding the chain's blocks
`0..s` with their total difficulties and no header rows above `s`, the four header tables stay
consistent up to the progress, with no total difficulty above it. -/
theorem headers_run_consistent (c : Chain) (g : Nat) (hinit : HeadersAt c g db₀ s (s + 1) s)
    (hrun : Relation.ReflTransGen (HeadersStep c) (db₀, s) (db, p)) :
    Consistent c.hashOf db p := by
  obtain ⟨l, u, h⟩ := hinit.run hrun
  exact h.consistent

theorem headers_run_consistent_linear :
    Consistent linearChain.hashOf
      ((linearStage 1 Nat.one_pos).execute HeaderStage.genesisDb ⟨none, some 0⟩).1
      (progressAfter 0
        ((linearStage 1 Nat.one_pos).execute HeaderStage.genesisDb ⟨none, some 0⟩).2) :=
  headers_run_consistent linearChain 1 genesisDb_headersAt
    (.single (.execute (linearStage 1 Nat.one_pos) linearDownloader_servesFully.serves
      linearConsensus_onChain rfl))

end Reth
