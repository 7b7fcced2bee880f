import Reth.Table

namespace Reth
set_option autoImplicit true

@[simp] theorem except_ok_bind (a : α) (f : α → Except ε β) : (Except.ok a >>= f) = f a := rfl

@[simp] theorem except_error_bind (e : ε) (f : α → Except ε β) :
    (Except.error e >>= f) = .error e := rfl

@[simp] theorem except_pure (a : α) : (pure a : Except ε α) = .ok a := rfl

theorem except_bind_eq_ok {x : Except ε α} {f : α → Except ε β} :
    x >>= f = .ok b ↔ ∃ a, x = .ok a ∧ f a = .ok b := by
  cases x <;> simp

theorem except_bind_eq_error {x : Except ε α} {f : α → Except ε β} :
    x >>= f = .error e ↔ x = .error e ∨ ∃ a, x = .ok a ∧ f a = .error e := by
  cases x <;> simp

theorem except_mapError_eq_ok {x : Except ε α} {f : ε → ε'} :
    x.mapError f = .ok a ↔ x = .ok a := by
  cases x <;> simp [Except.mapError]

theorem foldlM_error {xs : List α} {f : β → α → Except ε β} {P : ε → Prop}
    (hf : ∀ b, ∀ a ∈ xs, ∀ e, f b a = .error e → P e) (h : xs.foldlM f b = .error e) :
    P e := by
  induction xs generalizing b with
  | nil => cases h
  | cons a xs ih =>
    rcases except_bind_eq_error.1 (List.foldlM_cons f b a xs ▸ h) with h | ⟨b', -, h⟩
    · exact hf b a (List.mem_cons_self _ _) e h
    · exact ih (fun b a ha => hf b a (List.mem_cons_of_mem _ ha)) h

/-- `Option::ok_or`: the value, or the given error. -/
def okOr (o : Option α) (e : ε) : Except ε α :=
  match o with
  | some a => .ok a
  | none => .error e

@[simp] theorem okOr_some (a : α) (e : ε) : okOr (some a) e = .ok a := rfl

@[simp] theorem okOr_none (e : ε) : okOr (none : Option α) e = .error e := rfl

@[simp] theorem option_mapM_none [Monad m] (f : α → m β) :
    (none : Option α).mapM f = pure none := rfl

@[simp] theorem option_mapM_some [Monad m] (f : α → m β) (a : α) :
    (some a).mapM f = f a >>= fun b => pure (some b) := rfl

/-- `collect::<Result<Vec<_>, E>>()`: every item, or the first error. -/
def collect (items : List (Except ε α)) : Except ε (List α) := items.mapM id

@[simp] theorem collect_nil : collect ([] : List (Except ε α)) = .ok [] := rfl

@[simp] theorem collect_cons (x : Except ε α) (xs : List (Except ε α)) :
    collect (x :: xs) = x.bind fun a => (collect xs).map (a :: ·) := by
  cases x <;> simp only [collect, List.mapM_cons, id] <;> rfl

def chunksAux (n : Nat) : Nat → List α → List (List α)
  | 0, _ => []
  | _ + 1, [] => []
  | fuel + 1, x :: xs => (x :: xs).take n :: chunksAux n fuel ((x :: xs).drop n)

/-- `chunks(n)` of an iterator or a stream: consecutive groups of `n` items, the last one
possibly shorter. Both libraries panic on `n = 0`, which the stages rule out. -/
def chunks (n : Nat) (xs : List α) : List (List α) := chunksAux n xs.length xs

theorem collect_map_ok (xs : List α) :
    collect (xs.map Except.ok : List (Except ε α)) = .ok xs := by
  induction xs with
  | nil => rfl
  | cons x xs ih => simp [ih, Except.bind, Except.map]

theorem collect_append_error (pre : List α) (e : ε) (post : List (Except ε α)) :
    collect (pre.map Except.ok ++ .error e :: post) = .error e := by
  induction pre with
  | nil => rfl
  | cons x pre ih => simp [ih, Except.bind, Except.map]

theorem mem_of_collect_eq_ok {items : List (Except ε α)} (h : collect items = .ok as)
    (ha : a ∈ as) : Except.ok a ∈ items := by
  induction items generalizing as with
  | nil => cases h; cases ha
  | cons x items ih =>
    cases x with
    | error e => cases h
    | ok b =>
      cases hc : collect items with
      | error e => simp [hc, Except.bind, Except.map] at h
      | ok bs =>
        simp only [collect_cons, hc, Except.bind, Except.map, Except.ok.injEq] at h
        subst h
        rcases List.mem_cons.1 ha with rfl | ha
        · exact List.mem_cons_self _ _
        · exact List.mem_cons_of_mem _ (ih hc ha)

theorem chunksAux_enough (hn : 0 < n) (h₁ : xs.length ≤ f₁) (h₂ : xs.length ≤ f₂) :
    chunksAux n f₁ xs = chunksAux n f₂ xs := by
  induction f₁ generalizing xs f₂ with
  | zero => cases xs <;> cases f₂ <;> simp_all [chunksAux]
  | succ f₁ ih =>
    cases f₂ with
    | zero => cases xs <;> simp_all [chunksAux]
    | succ f₂ =>
      cases xs with
      | nil => rfl
      | cons x xs =>
        simp only [chunksAux, List.cons.injEq, true_and]
        apply ih <;> simp only [List.length_drop, List.length_cons] at h₁ h₂ ⊢ <;> omega

@[simp] theorem chunks_nil : chunks n ([] : List α) = [] := rfl

theorem chunks_cons (hn : 0 < n) (x : α) (xs : List α) :
    chunks n (x :: xs) = (x :: xs).take n :: chunks n ((x :: xs).drop n) := by
  simp only [chunks, List.length_cons, chunksAux, List.cons.injEq, true_and]
  exact chunksAux_enough hn (by simp; omega) (by simp)

theorem chunks_of_ne_nil (hn : 0 < n) (h : xs ≠ []) :
    chunks n xs = xs.take n :: chunks n (xs.drop n) := by
  obtain ⟨x, xs, rfl⟩ := List.exists_cons_of_ne_nil h
  exact chunks_cons hn x xs

theorem flatten_chunks (hn : 0 < n) (xs : List α) : (chunks n xs).flatten = xs := by
  suffices ∀ f (xs : List α), xs.length ≤ f → (chunksAux n f xs).flatten = xs from
    this _ _ le_rfl
  intro f
  induction f with
  | zero => intro xs h; simp_all [chunksAux]
  | succ f ih =>
    intro xs h
    cases xs with
    | nil => rfl
    | cons x xs =>
      rw [chunksAux, List.flatten_cons, ih _ (by simp at h ⊢; omega), List.take_append_drop]

theorem mem_of_mem_chunks (hn : 0 < n) (hc : c ∈ chunks n xs) (hx : x ∈ c) : x ∈ xs :=
  flatten_chunks hn xs ▸ List.mem_flatten.2 ⟨c, hc, hx⟩

theorem chunks_drop (hn : 0 < n) (j : Nat) (xs : List α) :
    chunks n (xs.drop (j * n)) = (chunks n xs).drop j := by
  induction j generalizing xs with
  | zero => simp
  | succ j ih =>
    cases xs with
    | nil => simp
    | cons x xs =>
      rw [chunks_cons hn, List.drop_succ_cons, ← ih, List.drop_drop, Nat.succ_mul,
        Nat.add_comm]

theorem chunks_map (f : α → β) (n : Nat) (xs : List α) :
    chunks n (xs.map f) = (chunks n xs).map (List.map f) := by
  suffices ∀ fuel (xs : List α),
      chunksAux n fuel (xs.map f) = (chunksAux n fuel xs).map (List.map f) by
    simpa [chunks] using this xs.length xs
  intro fuel
  induction fuel with
  | zero => simp [chunksAux]
  | succ fuel ih =>
    intro xs
    cases xs with
    | nil => rfl
    | cons x xs =>
      rw [List.map_cons, chunksAux, ← List.map_cons, ← List.map_take, ← List.map_drop, ih,
        chunksAux, List.map_cons]

theorem chunks_take (hn : 0 < n) (j : Nat) (xs : List α) :
    (chunks n xs).take j = chunks n (xs.take (j * n)) := by
  induction j generalizing xs with
  | zero => simp
  | succ j ih =>
    cases xs with
    | nil => simp
    | cons x xs =>
      have hne : (x :: xs).take ((j + 1) * n) ≠ [] := by
        simp only [ne_eq, List.take_eq_nil_iff, reduceCtorEq, or_false]
        exact Nat.pos_iff_ne_zero.1 (Nat.mul_pos (Nat.succ_pos j) hn)
      rw [chunks_cons hn, List.take_succ_cons, ih, chunks_of_ne_nil hn hne, List.take_take,
        min_eq_left (Nat.le_mul_of_pos_left n (Nat.succ_pos j)), List.drop_take, Nat.succ_mul,
        Nat.add_sub_cancel]

theorem chunks_eq_nil (hn : 0 < n) (xs : List α) : chunks n xs = [] ↔ xs = [] :=
  ⟨fun h => by_contra fun hne => (by rw [chunks_of_ne_nil hn hne] at h; cases h),
    fun h => h ▸ rfl⟩

theorem lt_length_chunks (hn : 0 < n) : j < (chunks n xs).length ↔ j * n < xs.length := by
  have h := (chunks_eq_nil hn (xs.drop (j * n))).not
  rw [chunks_drop hn, List.drop_eq_nil_iff, List.drop_eq_nil_iff] at h
  simpa using h

theorem isInfix_of_mem_chunks {xs : List α} (hc : c ∈ chunks n xs) : c <:+: xs := by
  suffices ∀ f (xs : List α), c ∈ chunksAux n f xs → c <:+: xs from this _ _ hc
  intro f
  induction f with
  | zero => intro xs h; cases h
  | succ f ih =>
    intro xs h
    cases xs with
    | nil => cases h
    | cons x xs =>
      rcases List.mem_cons.1 h with rfl | h
      · exact (List.take_prefix _ _).isInfix
      · exact (ih _ h).trans (List.drop_suffix _ _).isInfix

/-- Modelled from the spec: the tables the Headers and Senders stages read and write. A
`Transactions` row whose bytes do not decode holds `none`. -/
@[ext] structure Tables where
  canonicalHeaders : Table Nat H256
  headerNumbers : Table H256 Nat
  headers : Table BlockNumHash Header
  headerTD : Table BlockNumHash Nat
  blockBodies : Table BlockNumHash StoredBlockBody
  transactions : Table Nat (Option TransactionSigned)
  txSenders : Table Nat Address

namespace Tables

/-- Modelled from the spec: `get_block_hash`, the canonical hash at a height. -/
def getBlockHash (db : Tables) (number : Nat) : Except StageError H256 :=
  match db.canonicalHeaders.get number with
  | some hash => .ok hash
  | none => .error (.databaseIntegrity (.canonicalHeader number))

/-- Modelled from the spec: `get_block_numhash`, the key of the canonical block at a height. -/
def getBlockNumhash (db : Tables) (number : Nat) : Except StageError BlockNumHash :=
  (db.getBlockHash number).map (⟨number, ·⟩)

/-- Modelled from the spec: `get_block_body_by_num`, the canonical block's body. -/
def getBlockBodyByNum (db : Tables) (number : Nat) : Except StageError StoredBlockBody := do
  let key ← db.getBlockNumhash number
  match db.blockBodies.get key with
  | some body => .ok body
  | none => .error (.databaseIntegrity (.blockBody number))

theorem getBlockNumhash_eq_ok {db : Tables} :
    db.getBlockNumhash n = .ok key ↔
      key.number = n ∧ db.canonicalHeaders.get n = some key.hash := by
  unfold getBlockNumhash getBlockHash
  split <;> rename_i h <;> simp only [h, Except.map, Except.ok.injEq, reduceCtorEq, false_iff,
    Option.some.injEq, false_and, not_false_eq_true, and_false]
  constructor
  · rintro rfl; exact ⟨rfl, rfl⟩
  · rintro ⟨rfl, rfl⟩; rfl

theorem getBlockBodyByNum_eq_ok {db : Tables} :
    db.getBlockBodyByNum n = .ok body ↔ ∃ hash, db.canonicalHeaders.get n = some hash ∧
      db.blockBodies.get ⟨n, hash⟩ = some body := by
  simp only [getBlockBodyByNum, getBlockNumhash, getBlockHash]
  cases hc : db.canonicalHeaders.get n with
  | none => simp [Except.map]
  | some hash =>
    simp only [Except.map, except_ok_bind, Option.some.injEq, exists_eq_left']
    split <;> rename_i hb <;> simp [hb]

end Tables

namespace Table

/-- Modelled from the spec: `unwind_table_by_num`, drop every row keyed above `n`. -/
def unwindByNum (t : Table Nat V) (n : Nat) : Table Nat V := t.retain (· ≤ n)

theorem get_unwindByNum {t : Table Nat V} :
    (t.unwindByNum n).get k = if k ≤ n then t.get k else none := by
  simp [unwindByNum]

/-- Modelled from the spec: `unwind_table_by_num_hash`, drop every row whose key's block number
is above `n`. -/
def unwindByNumHash (t : Table BlockNumHash V) (n : Nat) : Table BlockNumHash V :=
  t.retain (·.number ≤ n)

theorem get_unwindByNumHash {t : Table BlockNumHash V} :
    (t.unwindByNumHash n).get k = if k.number ≤ n then t.get k else none := by
  simp [unwindByNumHash]

/-- Modelled from the spec: `unwind_table_by_walker::<T1, T2>(start)`, walk `T1` from `start` and
delete the `T2` row keyed by each value walked. -/
def unwindByWalker [LinearOrder K] [LinearOrder W] (index : Table K W) (data : Table W V)
    (start : K) : Table W V :=
  (index.walk start).foldl (fun d r => d.delete r.2) data

theorem get_unwindByWalker [LinearOrder K] [LinearOrder W] {index : Table K W}
    {data : Table W V} :
    (unwindByWalker index data start).get w =
      if (index.walk start).any (·.2 = w) then none else data.get w := by
  unfold unwindByWalker
  generalize index.walk start = rs
  induction rs generalizing data with
  | nil => simp
  | cons r rs ih =>
    rw [List.foldl_cons, ih, List.any_cons, get_delete]
    by_cases h : r.2 = w
    · simp [h]
    · have h' : w ≠ r.2 := Ne.symm h
      simp only [h, h', decide_False, Bool.false_or, if_false]

end Table

end Reth
