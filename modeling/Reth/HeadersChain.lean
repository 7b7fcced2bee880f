import Reth.HeadersUnwind
import Mathlib.Data.List.Range

namespace Reth
set_option autoImplicit true

theorem find?_of_unique [DecidableEq α] {p : α → Bool} (hp : ∀ b, p b → b = a)
    (l : List α) :
    l.find? p = if a ∈ l ∧ p a then some a else none := by
  induction l with
  | nil => simp
  | cons b l ih =>
    by_cases hb : p b
    · obtain rfl := hp b hb
      simp [hb]
    · rw [List.find?_cons_of_neg _ hb, ih]
      by_cases hab : a = b
      · subst hab; simp [hb]
      · simp [hab]

/-- A chain of sealed headers, one at each height, each linked to the one below it and hashed by
`hashOf`, with pairwise distinct hashes. -/
structure Chain where
  header : Nat → SealedHeader
  hashOf : Header → H256
  number_header : ∀ n, (header n).number = n
  parentHash_header : ∀ n, (header (n + 1)).parentHash = (header n).hash
  hashOf_header : ∀ n, hashOf (header n).header = (header n).hash
  hash_injective : Function.Injective fun n => (header n).hash

/-- The heights `t, t - 1, …, t - m + 1`. -/
def topHeights (t m : Nat) : List Nat := (List.range m).map (t - ·)

theorem mem_topHeights (hm : m ≤ t + 1) :
    n ∈ topHeights t m ↔ t + 1 - m ≤ n ∧ n ≤ t := by
  simp only [topHeights, List.mem_map, List.mem_range]
  constructor
  · rintro ⟨i, hi, rfl⟩; omega
  · rintro ⟨h₁, h₂⟩; exact ⟨t - n, by omega, by omega⟩

namespace Chain

variable (c : Chain)

def hash (n : Nat) : H256 := (c.header n).hash

def key (n : Nat) : BlockNumHash := ⟨n, c.hash n⟩

/-- The total difficulty of block `n`, from the genesis total difficulty `g`. -/
def td (g : Nat) : Nat → Nat
  | 0 => g
  | n + 1 => td g n + (c.header (n + 1)).header.difficulty

/-- The chain's headers from block `t` down to block `n + 1`, in the order a downloader serves
them. -/
def descending (t n : Nat) : List SealedHeader := (topHeights t (t - n)).map c.header

/-- A downloader serves the chain: for a tip on it, it yields the chain's headers from the tip
down to the block above the head, possibly cut off by an error after any prefix. -/
def Serves (d : SealedHeader → H256 → List (Except DownloadError SealedHeader)) : Prop :=
  ∀ head t, d head (c.hash t) = (c.descending t head.number).map .ok ∨
    ∃ i e rest,
      d head (c.hash t) = ((c.descending t head.number).take i).map .ok ++ .error e :: rest

/-- A downloader serves every request on the chain in full. -/
def ServesFully (d : SealedHeader → H256 → List (Except DownloadError SealedHeader)) : Prop :=
  ∀ head t, d head (c.hash t) = (c.descending t head.number).map .ok

/-- The consensus client publishes heads on the chain. -/
def OnChain (consensus : Consensus) : Prop :=
  ∀ head, ∃ t, (consensus.nextForkChoiceState head).headBlockHash = c.hash t

variable {c}

theorem ServesFully.serves (h : c.ServesFully d) : c.Serves d := fun head t => .inl (h head t)

theorem hash_inj : c.hash m = c.hash n ↔ m = n := c.hash_injective.eq_iff

@[simp] theorem header_number : (c.header n).number = n := c.number_header n

@[simp] theorem number_header' : (c.header n).header.number = n := c.number_header n

theorem header_eq_mk : (⟨(c.header n).header, c.hash n⟩ : SealedHeader) = c.header n := rfl

theorem numHash_header : (c.header n).numHash = c.key n := by
  simp only [SealedHeader.numHash, SealedHeader.number, number_header', key, hash]

theorem parentHash_header' (hn : 0 < n) : (c.header n).header.parentHash = c.hash (n - 1) := by
  cases n with
  | zero => omega
  | succ m => exact c.parentHash_header m

theorem td_succ (g n : Nat) : c.td g (n + 1) = c.td g n + (c.header (n + 1)).header.difficulty :=
  rfl

theorem key_lt_key : c.key m < c.key n ↔ m < n := by
  rw [BlockNumHash.lt_iff]
  simp only [key]
  constructor
  · rintro (h | ⟨rfl, h⟩); exact h; exact absurd h (lt_irrefl _)
  · exact .inl

theorem key_le_key : c.key m ≤ c.key n ↔ m ≤ n := by
  rw [BlockNumHash.le_iff]
  simp only [key]
  constructor
  · rintro (h | ⟨rfl, -⟩) <;> omega
  · intro h
    rcases h.lt_or_eq with h | rfl
    · exact .inl h
    · exact .inr ⟨rfl, le_rfl⟩

theorem descending_take (hm : m ≤ t - n) :
    (c.descending t n).take m = (topHeights t m).map c.header := by
  rw [descending, topHeights, ← List.map_take, ← List.map_take, List.take_range,
    min_eq_left hm, topHeights]

theorem descending_linked (t n : Nat) : (c.descending t n).Chain' Linked := by
  rw [descending, topHeights, List.map_map, List.chain'_map]
  rcases Nat.eq_zero_or_pos (t - n) with h | h
  · simp [h]
  · obtain ⟨k, hk⟩ := Nat.exists_eq_add_of_lt h
    rw [hk, Nat.zero_add, List.chain'_range_succ]
    intro m hm
    have he : t - m = t - (m + 1) + 1 := by omega
    simp only [Function.comp, Linked, SealedHeader.number, number_header']
    rw [he, c.parentHash_header]
    exact ⟨rfl, rfl⟩

theorem linked_of_isInfix (h : hs <:+: c.descending t n) : hs.Chain' Linked :=
  List.Chain'.infix (descending_linked t n) h

@[simp] theorem length_descending : (c.descending t n).length = t - n := by
  simp [descending, topHeights]

theorem number_le_of_mem_descending (hh : h ∈ c.descending t n) : h.number ≤ t := by
  simp only [descending, topHeights, List.map_map, List.mem_map, List.mem_range] at hh
  obtain ⟨i, -, rfl⟩ := hh
  simp

end Chain

namespace Tables

variable {c : Chain}

theorem writeHeaders_chain_canonical (db : Tables) (ns : List Nat) (n : Nat) :
    (db.writeHeaders (ns.map c.header)).1.canonicalHeaders.get n =
      if n ≠ 0 ∧ n ∈ ns then some (c.hash n) else db.canonicalHeaders.get n := by
  rw [writeHeaders_canonicalHeaders_get, List.find?_map,
    find?_of_unique (a := n) (fun b hb => by simpa [Function.comp] using hb)]
  by_cases h0 : n = 0 <;> by_cases hn : n ∈ ns <;> simp [h0, hn, Function.comp, Chain.hash]

theorem writeHeaders_chain_headers (db : Tables) (ns : List Nat) (k : BlockNumHash) :
    (db.writeHeaders (ns.map c.header)).1.headers.get k =
      if k.number ≠ 0 ∧ k.number ∈ ns ∧ k = c.key k.number then
        some (c.header k.number).header
      else db.headers.get k := by
  rw [writeHeaders_headers_get, List.find?_map, find?_of_unique (a := k.number) (fun b hb => by
    simp only [Function.comp, Chain.numHash_header, decide_eq_true_eq] at hb; rw [← hb]; rfl)]
  by_cases h0 : k.number = 0
  · simp [h0]
  by_cases hk : k = c.key k.number
  · conv_lhs => rw [hk]
    by_cases hn : k.number ∈ ns <;> simp [h0, hn, Function.comp, Chain.numHash_header, ← hk]
  · have hk' : c.key k.number ≠ k := Ne.symm hk
    simp [h0, hk, hk', Function.comp, Chain.numHash_header]

theorem writeHeaders_chain_numbers (db : Tables) (ns : List Nat) (m : Nat) :
    (db.writeHeaders (ns.map c.header)).1.headerNumbers.get (c.hash m) =
      if m ≠ 0 ∧ m ∈ ns then some m else db.headerNumbers.get (c.hash m) := by
  rw [writeHeaders_headerNumbers_get, List.find?_map, find?_of_unique (a := m) (fun b hb => by
    simp only [Function.comp, decide_eq_true_eq] at hb; exact Chain.hash_inj.1 hb.1)]
  by_cases h0 : m = 0 <;> by_cases hm : m ∈ ns <;>
    simp [h0, hm, Function.comp, Chain.hash, SealedHeader.number]

theorem writeHeaders_chain_numbers_of_ne (db : Tables) (ns : List Nat)
    (hx : ∀ m, c.hash m ≠ x) :
    (db.writeHeaders (ns.map c.header)).1.headerNumbers.get x = db.headerNumbers.get x := by
  rw [writeHeaders_headerNumbers_get, List.find?_map,
    List.find?_eq_none.2 fun m _ => by
      simp only [Function.comp, decide_eq_true_eq, not_and]; exact fun h => absurd h (hx m)]
  rfl

theorem writeHeaders_chain_congr (db : Tables) {ns ms : List Nat}
    (h : ∀ n, n ∈ ns ↔ n ∈ ms) :
    (db.writeHeaders (ns.map c.header)).1 = (db.writeHeaders (ms.map c.header)).1 := by
  obtain ⟨h₁, h₂, h₃, h₄⟩ := writeHeaders_frame db (ns.map c.header)
  obtain ⟨h₁', h₂', h₃', h₄'⟩ := writeHeaders_frame db (ms.map c.header)
  apply Tables.ext
  · exact Table.ext_get fun n => by simp only [writeHeaders_chain_canonical, h]
  · refine Table.ext_get fun x => ?_
    by_cases hx : ∃ m, c.hash m = x
    · obtain ⟨m, rfl⟩ := hx
      simp only [writeHeaders_chain_numbers, h]
    · push_neg at hx
      rw [writeHeaders_chain_numbers_of_ne _ _ hx, writeHeaders_chain_numbers_of_ne _ _ hx]
  · exact Table.ext_get fun k => by simp only [writeHeaders_chain_headers, h]
  all_goals simp only [*]

theorem writeChunks_chain (db : Tables) (hk : 0 < k) (ns : List Nat) :
    db.writeChunks (chunks k (ns.map c.header)) = (db.writeHeaders (ns.map c.header)).1 := by
  rw [writeChunks_eq, chunks_map, ← List.map_reverse, ← List.map_flatten]
  exact writeHeaders_chain_congr db fun n => by
    rw [List.mem_flatten]
    simp only [List.mem_reverse]
    rw [← List.mem_flatten, flatten_chunks hk]

theorem writeHeaders_top_descending (db : Tables) (hm : m ≤ t - p) :
    ((db.writeHeaders ((topHeights t m).map c.header)).1.writeHeaders (c.descending (t - m) p)).1 =
      (db.writeHeaders (c.descending t p)).1 := by
  rw [← writeHeaders_append, Chain.descending, Chain.descending, ← List.map_append]
  refine writeHeaders_chain_congr db fun n => ?_
  rw [List.mem_append, mem_topHeights (by omega), mem_topHeights (by omega),
    mem_topHeights (by omega)]
  omega

end Tables

namespace HeaderStage

variable {c : Chain}

theorem streamChunks_top (hk : 0 < k) (db : Tables) (hm : m ≤ t - p) :
    ∃ cur, streamChunks p db p ((chunks k ((topHeights t m).map c.header)).map (List.map .ok)) =
      ((db.writeHeaders ((topHeights t m).map c.header)).1, .ok cur) ∧ cur ≤ max p t := by
  have hD := Chain.descending_take (c := c) hm
  have hsub : ∀ ch ∈ chunks k ((topHeights t m).map c.header), ch <:+: c.descending t p :=
    fun ch hc => (isInfix_of_mem_chunks hc).trans (hD ▸ (List.take_prefix _ _).isInfix)
  obtain ⟨cur, he, hb⟩ :=
    streamChunks_append_valid p (chunks k ((topHeights t m).map c.header)) []
    (fun ch hc => (validateHeaderResponse_eq_ok ch).2 (Chain.linked_of_isInfix (hsub ch hc)))
    db p
  rw [List.append_nil] at he
  refine ⟨cur, by rw [he, Tables.writeChunks_chain db hk]; rfl, hb t fun ch hc h hh => ?_⟩
  exact Chain.number_le_of_mem_descending ((hsub ch hc).subset hh)

theorem streamChunks_descending (hk : 0 < k) (db : Tables) (t p : Nat) :
    ∃ cur, streamChunks p db p ((chunks k (c.descending t p)).map (List.map .ok)) =
      ((db.writeHeaders (c.descending t p)).1, .ok cur) ∧ cur ≤ max p t :=
  streamChunks_top hk db le_rfl

theorem streamChunks_descending_cut (hk : 0 < k) (db : Tables) (t p i : Nat) (e : DownloadError)
    (rest : List (Except DownloadError SealedHeader)) :
    ∃ err,
      streamChunks p db p (chunks k (((c.descending t p).take i).map .ok ++ .error e :: rest)) =
      ((db.writeHeaders ((topHeights t (min i (t - p) / k * k)).map c.header)).1, .error err) := by
  set A := (c.descending t p).take i
  set m := min i (t - p) / k * k
  have hA : A.length = min i (t - p) := by simp [A]
  have hm : m ≤ A.length := hA ▸ Nat.div_mul_le_self _ _
  have hrem : A.length - m < k := by
    have := Nat.mod_lt (min i (t - p)) hk
    have := Nat.div_add_mod (min i (t - p)) k
    rw [Nat.mul_comm] at this
    omega
  set items := A.map .ok ++ .error e :: rest
  have hdrop : items.drop m = (A.drop m).map .ok ++ .error e :: rest := by
    rw [List.drop_append_of_le_length (by simpa using hm), List.map_drop]
  have hbad : collect ((items.drop m).take k) = .error e := by
    obtain ⟨r, hr⟩ := Nat.exists_eq_succ_of_ne_zero
      (show k - ((A.drop m).map Except.ok).length ≠ 0 by simp; omega)
    rw [hdrop, List.take_append_eq_append_take, List.take_of_length_le (by simp; omega), hr,
      List.take_succ_cons]
    exact collect_append_error _ _ _
  have htake : items.take m = (A.take m).map .ok := by
    rw [List.take_append_of_le_length (by simpa using hm), List.map_take _ A]
  have hsplit : chunks k items = chunks k (items.take m) ++ chunks k (items.drop m) := by
    rw [← chunks_take hk, chunks_drop hk, List.take_append_drop]
  have hlinked : ∀ ch ∈ chunks k (A.take m), validateHeaderResponse ch = .ok () := fun ch hc =>
    (validateHeaderResponse_eq_ok ch).2 <| Chain.linked_of_isInfix <|
      (isInfix_of_mem_chunks hc).trans ((List.take_prefix _ _).trans (List.take_prefix _ _)).isInfix
  obtain ⟨cur, he, -⟩ := streamChunks_append_valid p (chunks k (A.take m))
    (chunks k (items.drop m)) hlinked db p
  have hprefix : A.take m = (topHeights t m).map c.header := by
    rw [List.take_take, min_eq_left (by omega), Chain.descending_take (by omega)]
  rw [hsplit, htake, chunks_map, he,
    chunks_of_ne_nil hk (show items.drop m ≠ [] by rw [hdrop]; simp),
    streamChunks_cons_of_error hbad, hprefix, Tables.writeChunks_chain db hk]
  exact ⟨_, rfl⟩

end HeaderStage

end Reth
