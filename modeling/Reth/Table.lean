import Mathlib.Data.List.Sort
import Mathlib.Data.List.Perm.Basic
import Reth.Primitives

namespace Reth
set_option autoImplicit true

/-- Modelled from the spec: a table of the key/value store. Its rows are kept in strictly
ascending key order, as the B-tree keeps them, so a key has at most one row. -/
structure Table (K V : Type) [LinearOrder K] where
  rows : List (K × V)
  sorted : rows.Pairwise (fun a b => a.1 < b.1)

namespace Table

variable {K V : Type} [LinearOrder K]

instance [DecidableEq V] : DecidableEq (Table K V) := fun a b =>
  decidable_of_iff (a.rows = b.rows) (by cases a; cases b; simp)

def empty : Table K V := ⟨[], .nil⟩

/-- `get` / `seek_exact`: the row stored under a key. -/
def get (t : Table K V) (k : K) : Option V := (t.rows.find? (·.1 = k)).map Prod.snd

/-- `put` / `upsert`, and the cursor's `insert`, an unordered write: the rows below the key,
the new row, then the rows above it. -/
def put (t : Table K V) (k : K) (v : V) : Table K V :=
  ⟨t.rows.filter (·.1 < k) ++ (k, v) :: t.rows.filter (k < ·.1), by
    refine List.pairwise_append.2
      ⟨t.sorted.filter _, List.pairwise_cons.2 ⟨?_, t.sorted.filter _⟩, ?_⟩
    · intro r hr
      simpa using (List.mem_filter.1 hr).2
    · intro a ha b hb
      have ha' := of_decide_eq_true (List.mem_filter.1 ha).2
      rcases List.mem_cons.1 hb with rfl | hb
      · exact ha'
      · exact ha'.trans (of_decide_eq_true (List.mem_filter.1 hb).2)⟩

/-- The rows whose key satisfies `p`; every unwind primitive is one. -/
def retain (t : Table K V) (p : K → Bool) : Table K V :=
  ⟨t.rows.filter (p ·.1), t.sorted.filter _⟩

/-- `delete`: drop the row under a key. -/
def delete (t : Table K V) (k : K) : Table K V := t.retain (· ≠ k)

/-- `last`: the row with the greatest key. -/
def last (t : Table K V) : Option (K × V) := t.rows.getLast?

/-- The cursor's `next` after `seek_exact k`: the first row with a greater key. -/
def next (t : Table K V) (k : K) : Option (K × V) := t.rows.find? (k < ·.1)

/-- A walker started at `k`: the rows from the first key `≥ k` to the end, in key order. -/
def walk (t : Table K V) (k : K) : List (K × V) := t.rows.filter (k ≤ ·.1)

theorem lt_of_mem_of_last {t : Table K V} (hr : r ∈ t.rows) (hl : t.last = some l) :
    r = l ∨ r.1 < l.1 := by
  obtain ⟨hne, rfl⟩ := List.mem_getLast?_eq_getLast hl
  have hs := t.sorted
  rw [← List.dropLast_append_getLast hne] at hr hs
  rcases List.mem_append.1 hr with hr | hr
  · exact .inr ((List.pairwise_append.1 hs).2.2 r hr _ (List.mem_singleton_self _))
  · exact .inl (List.mem_singleton.1 hr)

theorem last_fst {t : Table K V} (hr : r ∈ t.rows) (hmax : ∀ r' ∈ t.rows, r'.1 ≤ r.1) :
    t.last.map (·.1) = some r.1 := by
  cases hl : t.last with
  | none => simp [last, List.getLast?_eq_none_iff.1 hl] at hr
  | some l =>
    have hle := hmax l (List.mem_of_getLast?_eq_some hl)
    rcases lt_of_mem_of_last hr hl with rfl | hlt
    · rfl
    · exact absurd hlt (not_lt.2 hle)

theorem lt_of_last_lt {t : Table K V} (h : ∀ l ∈ t.last, l.1 < k) :
    ∀ r ∈ t.rows, r.1 < k := by
  intro r hr
  cases hl : t.last with
  | none => simp [last, List.getLast?_eq_none_iff.1 hl] at hr
  | some l =>
    rcases lt_of_mem_of_last hr hl with rfl | hlt
    · exact h _ hl
    · exact hlt.trans (h _ hl)

/-- `append`: an appending cursor accepts only a key above the table's last key. -/
def append (t : Table K V) (k : K) (v : V) : Except DbError (Table K V) :=
  if h : ∀ l ∈ t.last, l.1 < k then
    .ok ⟨t.rows ++ [(k, v)], List.pairwise_append.2 ⟨t.sorted, List.pairwise_singleton _ _,
      fun r hr _ hb => List.mem_singleton.1 hb ▸ lt_of_last_lt h r hr⟩⟩
  else .error .write

theorem val_unique {t : Table K V} (h₁ : (k, v₁) ∈ t.rows) (h₂ : (k, v₂) ∈ t.rows) :
    v₁ = v₂ := by
  obtain ⟨rows, hs⟩ := t
  induction rows with
  | nil => cases h₁
  | cons r rs ih =>
    obtain ⟨hr, hs⟩ := List.pairwise_cons.1 hs
    rcases List.mem_cons.1 h₁ with e₁ | m₁
    · rcases List.mem_cons.1 h₂ with e₂ | m₂
      · exact (Prod.mk.inj (e₁.trans e₂.symm)).2
      · subst e₁; exact absurd (hr _ m₂) (lt_irrefl _)
    · rcases List.mem_cons.1 h₂ with e₂ | m₂
      · subst e₂; exact absurd (hr _ m₁) (lt_irrefl _)
      · exact ih hs m₁ m₂

theorem get_eq_some {t : Table K V} : t.get k = some v ↔ (k, v) ∈ t.rows := by
  have key {r : K × V} (hf : t.rows.find? (·.1 = k) = some r) : (k, r.2) ∈ t.rows := by
    have hk : r.1 = k := by simpa using List.find?_some hf
    rw [← hk]
    exact List.mem_of_find?_eq_some hf
  constructor
  · intro h
    obtain ⟨r, hr, rfl⟩ := Option.map_eq_some'.1 h
    exact key hr
  · intro h
    cases hf : t.rows.find? (·.1 = k) with
    | none => exact absurd (List.find?_eq_none.1 hf _ h) (by simp)
    | some r => simp only [get, hf, Option.map_some', val_unique (key hf) h]

theorem get_eq_none {t : Table K V} : t.get k = none ↔ ∀ v, (k, v) ∉ t.rows := by
  rw [Option.eq_none_iff_forall_not_mem]
  exact forall_congr' fun v => not_congr get_eq_some

theorem ext_rows {t₁ t₂ : Table K V} (h : t₁.rows = t₂.rows) : t₁ = t₂ := by
  cases t₁; cases t₂; cases h; rfl

theorem eq_of_sorted_of_mem_iff {l₁ l₂ : List (K × V)}
    (h₁ : l₁.Pairwise (fun a b => a.1 < b.1)) (h₂ : l₂.Pairwise (fun a b => a.1 < b.1))
    (h : ∀ r, r ∈ l₁ ↔ r ∈ l₂) : l₁ = l₂ := by
  have hnd {l : List (K × V)} (hl : l.Pairwise (fun a b => a.1 < b.1)) : l.Nodup :=
    hl.imp fun h e => by subst e; exact lt_irrefl _ h
  haveI : IsAntisymm (K × V) (fun a b => a.1 < b.1) :=
    ⟨fun _ _ h₁ h₂ => absurd (h₁.trans h₂) (lt_irrefl _)⟩
  exact List.eq_of_perm_of_sorted ((List.perm_ext_iff_of_nodup (hnd h₁) (hnd h₂)).2 h) h₁ h₂

theorem ext_get {t₁ t₂ : Table K V} (h : ∀ k, t₁.get k = t₂.get k) : t₁ = t₂ :=
  ext_rows (eq_of_sorted_of_mem_iff t₁.sorted t₂.sorted fun r => by
    rw [← get_eq_some, ← get_eq_some, h])

@[simp] theorem get_empty : (empty : Table K V).get k = none := rfl

@[simp] theorem get_put {t : Table K V} :
    (t.put k v).get k' = if k' = k then some v else t.get k' := by
  split_ifs with hk
  · subst hk; simp [put, get_eq_some]
  · cases hg : t.get k' with
    | none =>
      simp only [get_eq_none, put, List.mem_append, List.mem_cons, List.mem_filter] at hg ⊢
      intro v' hv
      rcases hv with hv | hv | hv
      · exact hg v' hv.1
      · exact hk (Prod.mk.inj hv).1
      · exact hg v' hv.1
    | some w =>
      simp only [get_eq_some, put, List.mem_append, List.mem_cons, List.mem_filter] at hg ⊢
      rcases lt_or_gt_of_ne hk with hlt | hlt
      · exact .inl ⟨hg, by simpa using hlt⟩
      · exact .inr (.inr ⟨hg, by simpa using hlt⟩)

@[simp] theorem get_retain {t : Table K V} :
    (t.retain p).get k = if p k then t.get k else none := by
  split_ifs with hp
  · cases hg : t.get k with
    | none =>
      simp only [get_eq_none, retain, List.mem_filter] at hg ⊢
      exact fun v hv => hg v hv.1
    | some w => simpa [get_eq_some, retain, hp] using hg
  · simpa [get_eq_none, retain] using fun _ _ => hp

@[simp] theorem get_delete {t : Table K V} :
    (t.delete k).get k' = if k' = k then none else t.get k' := by
  simp [delete, ite_not]

theorem delete_put_of_get_none {t : Table K V} (h : t.get k = none) : (t.put k v).delete k = t :=
  ext_get fun k' => by
    rw [get_delete, get_put]
    split_ifs with hk
    · rw [hk, h]
    · rfl

theorem mem_walk {t : Table K V} : r ∈ t.walk k ↔ r ∈ t.rows ∧ k ≤ r.1 := by
  simp [walk]

theorem walk_sorted (t : Table K V) (k : K) : (t.walk k).Pairwise (fun a b => a.1 < b.1) :=
  t.sorted.filter _

theorem next_eq_none {t : Table K V} : t.next k = none ↔ ∀ r ∈ t.rows, r.1 ≤ k := by
  simp [next]

theorem next_eq_some {t : Table K V} (hr : r ∈ t.rows) (hk : k < r.1)
    (hmin : ∀ r' ∈ t.rows, k < r'.1 → r.1 ≤ r'.1) : t.next k = some r := by
  cases hf : t.next k with
  | none => exact absurd (next_eq_none.1 hf r hr) (not_le.2 hk)
  | some r' =>
    obtain ⟨hk', as, bs, hrows, has⟩ := List.find?_eq_some.1 hf
    have hs := t.sorted
    rw [hrows] at hr hs
    rcases List.mem_append.1 hr with hr | hr
    · simpa [hk] using has r hr
    rcases List.mem_cons.1 hr with rfl | hr
    · rfl
    have hlt := (List.pairwise_cons.1 (List.pairwise_append.1 hs).2.1).1 r hr
    exact absurd (hmin r' (by rw [hrows]; simp) (by simpa using hk')) (not_le.2 hlt)

theorem append_of_lt {t : Table K V} (h : ∀ r ∈ t.rows, r.1 < k) :
    ∃ t', t.append k v = .ok t' ∧ t'.rows = t.rows ++ [(k, v)] := by
  have hl : ∀ l ∈ t.last, l.1 < k := fun l hl => h l (List.mem_of_getLast?_eq_some hl)
  exact ⟨_, dif_pos hl, rfl⟩

theorem append_eq_error {t : Table K V} :
    t.append k v = .error e → ∃ r ∈ t.rows, k ≤ r.1 := by
  unfold append
  split_ifs with h
  · simp
  · simp only [not_forall, not_lt] at h
    obtain ⟨l, hl, hk⟩ := h
    exact fun _ => ⟨l, List.mem_of_getLast?_eq_some hl, hk⟩

theorem append_error_write {t : Table K V} (h : t.append k v = .error e) : e = .write := by
  unfold append at h
  split_ifs at h
  cases h
  rfl

theorem append_rows {t t' : Table K V} (h : t.append k v = .ok t') :
    t'.rows = t.rows ++ [(k, v)] := by
  unfold append at h
  split_ifs at h
  cases h
  rfl

theorem append_eq_put {t t' : Table K V} (h : t.append k v = .ok t') : t' = t.put k v := by
  unfold append at h
  split_ifs at h with hl
  cases h
  have hlt := lt_of_last_lt hl
  refine ext_rows ?_
  simp only [put]
  rw [List.filter_eq_self.2 fun r hr => by simpa using hlt r hr,
    List.filter_eq_nil_iff.2 fun r hr => by simpa using (hlt r hr).le]

end Table

end Reth
