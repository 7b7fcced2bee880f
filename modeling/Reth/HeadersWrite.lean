import Reth.Headers

namespace Reth
set_option autoImplicit true

namespace Tables

variable {db : Tables}

@[simp] theorem writeHeader_headerTD : (db.writeHeader h).headerTD = db.headerTD := rfl

@[simp] theorem writeHeader_canonicalHeaders_get :
    (db.writeHeader h).canonicalHeaders.get n =
      if n = h.number then some h.hash else db.canonicalHeaders.get n := Table.get_put

@[simp] theorem writeHeader_headers_get :
    (db.writeHeader h).headers.get k = if k = h.numHash then some h.header else db.headers.get k :=
  Table.get_put

@[simp] theorem writeHeader_headerNumbers_get :
    (db.writeHeader h).headerNumbers.get x =
      if x = h.hash then some h.number else db.headerNumbers.get x := Table.get_put

theorem writeHeaders_cons (db : Tables) (h : SealedHeader) (hs : List SealedHeader) :
    db.writeHeaders (h :: hs) = if h.number = 0 then db.writeHeaders hs
      else ((db.writeHeaders hs).1.writeHeader h, some h.number) := by
  rw [writeHeaders, List.reverse_cons, List.foldl_append]
  rfl

@[simp] theorem writeHeaders_nil (db : Tables) : db.writeHeaders [] = (db, none) := rfl

theorem writeHeaders_append (db : Tables) (xs ys : List SealedHeader) :
    (db.writeHeaders (xs ++ ys)).1 = ((db.writeHeaders ys).1.writeHeaders xs).1 := by
  induction xs with
  | nil => rfl
  | cons x xs ih => rw [List.cons_append, writeHeaders_cons, writeHeaders_cons]; split <;> simp [ih]

theorem writeHeaders_canonicalHeaders_get (db : Tables) (hs : List SealedHeader) (n : Nat) :
    (db.writeHeaders hs).1.canonicalHeaders.get n = if n = 0 then db.canonicalHeaders.get n
      else ((hs.find? (·.number = n)).map (·.hash)).or (db.canonicalHeaders.get n) := by
  induction hs with
  | nil => simp
  | cons h hs ih =>
    rw [writeHeaders_cons]
    by_cases h0 : h.number = 0 <;> by_cases hn : h.number = n <;>
      simp_all [List.find?_cons, eq_comm]

theorem writeHeaders_headers_get (db : Tables) (hs : List SealedHeader) (k : BlockNumHash) :
    (db.writeHeaders hs).1.headers.get k = if k.number = 0 then db.headers.get k
      else ((hs.find? (·.numHash = k)).map (·.header)).or (db.headers.get k) := by
  induction hs with
  | nil => simp
  | cons h hs ih =>
    rw [writeHeaders_cons]
    by_cases h0 : h.number = 0 <;> by_cases hk : h.numHash = k
    all_goals simp_all [List.find?_cons, eq_comm]
    all_goals subst hk; simp_all [SealedHeader.numHash]

theorem writeHeaders_headerNumbers_get (db : Tables) (hs : List SealedHeader) (x : H256) :
    (db.writeHeaders hs).1.headerNumbers.get x =
      ((hs.find? fun h => h.hash = x ∧ h.number ≠ 0).map (·.number)).or
        (db.headerNumbers.get x) := by
  induction hs with
  | nil => simp
  | cons h hs ih =>
    rw [writeHeaders_cons]
    by_cases h0 : h.number = 0 <;> by_cases hx : h.hash = x <;>
      simp_all [List.find?_cons, eq_comm]

theorem writeHeaders_latest (db : Tables) (hs : List SealedHeader) :
    (db.writeHeaders hs).2 = (hs.find? (·.number ≠ 0)).map (·.number) := by
  induction hs with
  | nil => rfl
  | cons h hs ih =>
    rw [writeHeaders_cons]
    by_cases h0 : h.number = 0 <;> simp_all [List.find?_cons]

theorem writeHeaders_frame (db : Tables) (hs : List SealedHeader) :
    (db.writeHeaders hs).1.headerTD = db.headerTD ∧
      (db.writeHeaders hs).1.blockBodies = db.blockBodies ∧
      (db.writeHeaders hs).1.transactions = db.transactions ∧
      (db.writeHeaders hs).1.txSenders = db.txSenders := by
  induction hs with
  | nil => exact ⟨rfl, rfl, rfl, rfl⟩
  | cons h hs ih => rw [writeHeaders_cons]; split <;> exact ih

/-- The tables after `write_headers` of each chunk in turn. -/
def writeChunks (db : Tables) (cs : List (List SealedHeader)) : Tables :=
  cs.foldl (fun db c => (db.writeHeaders c).1) db

theorem writeChunks_eq (db : Tables) (cs : List (List SealedHeader)) :
    db.writeChunks cs = (db.writeHeaders cs.reverse.flatten).1 := by
  induction cs generalizing db with
  | nil => rfl
  | cons c cs ih =>
    rw [writeChunks, List.foldl_cons, ← writeChunks, ih, List.reverse_cons, List.flatten_append,
      List.flatten_singleton, writeHeaders_append]

end Tables

end Reth
