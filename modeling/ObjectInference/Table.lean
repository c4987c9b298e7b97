/-!
Finite maps that remember the order in which their keys first arrived.

A table is a list of entries. A write to a key that is present replaces its
value where it stands, and a new key goes last, so `keys` is the order of
first arrival. Every question about a table is answered by `get?`, and the
lemmas below say what each write does to it.
-/

namespace ObjectInference

structure Table (κ α : Type) where
  entries : List (κ × α) := []
deriving DecidableEq, Repr

namespace Table

variable {κ α : Type} [DecidableEq κ]

def empty : Table κ α := ⟨[]⟩

/-- The value of the first entry with this key. -/
def lookup (k : κ) : List (κ × α) → Option α
  | [] => none
  | (k', v) :: rest => if k' = k then some v else lookup k rest

def get? (t : Table κ α) (k : κ) : Option α :=
  lookup k t.entries

def contains (t : Table κ α) (k : κ) : Bool :=
  (t.get? k).isSome

/-- Write a value in place, or after all entries when the key is new. -/
def put (k : κ) (v : α) : List (κ × α) → List (κ × α)
  | [] => [(k, v)]
  | (k', v') :: rest => if k' = k then (k, v) :: rest else (k', v') :: put k v rest

def insert (t : Table κ α) (k : κ) (v : α) : Table κ α :=
  ⟨put k v t.entries⟩

/-- Write only where nothing is stored yet. -/
def insertNew (t : Table κ α) (k : κ) (v : α) : Table κ α :=
  if t.contains k then t else t.insert k v

/-- Keep the entries whose key passes the test. -/
def restrict (t : Table κ α) (keep : κ → Bool) : Table κ α :=
  ⟨t.entries.filter fun e => keep e.1⟩

def erase (t : Table κ α) (k : κ) : Table κ α :=
  t.restrict fun k' => decide (k' ≠ k)

def keys (t : Table κ α) : List κ :=
  t.entries.map Prod.fst

/-! ### Reading after a write -/

theorem lookup_put (k k' : κ) (v : α) (es : List (κ × α)) :
    lookup k' (put k v es) = if k = k' then some v else lookup k' es := by
  induction es with
  | nil => simp [put, lookup]
  | cons e es ih =>
    obtain ⟨k₁, v₁⟩ := e
    by_cases h : k₁ = k
    · subst h
      by_cases h' : k₁ = k' <;> simp [put, lookup, h']
    · by_cases h' : k₁ = k'
      · subst h'
        simp [put, lookup, h, Ne.symm h]
      · simp [put, lookup, h, h', ih]

theorem lookup_filter (keep : κ → Bool) (k : κ) (es : List (κ × α)) :
    lookup k (es.filter fun e => keep e.1) = if keep k then lookup k es else none := by
  induction es with
  | nil => simp [lookup]
  | cons e es ih =>
    obtain ⟨k₁, v₁⟩ := e
    by_cases h : k₁ = k
    · subst h
      cases hk : keep k₁ <;> simp [lookup, ih, hk]
    · cases hk : keep k₁ <;> simp [lookup, ih, h, hk]

@[simp] theorem get?_empty (k : κ) : (empty : Table κ α).get? k = none := rfl

@[simp] theorem get?_insert (t : Table κ α) (k k' : κ) (v : α) :
    (t.insert k v).get? k' = if k = k' then some v else t.get? k' :=
  lookup_put k k' v t.entries

@[simp] theorem get?_restrict (t : Table κ α) (keep : κ → Bool) (k : κ) :
    (t.restrict keep).get? k = if keep k then t.get? k else none :=
  lookup_filter keep k t.entries

theorem of_get?_restrict {t : Table κ α} {keep : κ → Bool} {k : κ} {v : α}
    (h : (t.restrict keep).get? k = some v) : t.get? k = some v := by
  rw [get?_restrict] at h
  split at h
  · exact h
  · cases h

@[simp] theorem get?_erase (t : Table κ α) (k k' : κ) :
    (t.erase k).get? k' = if k = k' then none else t.get? k' := by
  by_cases h : k = k'
  · simp [erase, h]
  · simp [erase, h, Ne.symm h]

theorem get?_insertNew (t : Table κ α) (k k' : κ) (v : α) :
    (t.insertNew k v).get? k' = if k = k' then some ((t.get? k).getD v) else t.get? k' := by
  unfold insertNew contains
  cases h : t.get? k with
  | none => simp
  | some w =>
    by_cases hk : k = k'
    · subst hk; simp [h]
    · simp [hk]

/-! ### Keys -/

theorem mem_keys {t : Table κ α} {k : κ} {v : α} (h : t.get? k = some v) : k ∈ t.keys := by
  unfold get? at h
  unfold keys
  generalize t.entries = entries at h ⊢
  induction entries with
  | nil => cases h
  | cons e es ih =>
      unfold lookup at h
      split at h
      · rename_i hk
        exact List.mem_cons.2 (.inl hk.symm)
      · exact List.mem_cons_of_mem _ (ih h)

theorem exists_get?_of_mem_keys {t : Table κ α} {k : κ} (h : k ∈ t.keys) :
    ∃ v, t.get? k = some v := by
  unfold keys at h
  unfold get?
  generalize t.entries = entries at h ⊢
  induction entries with
  | nil => cases h
  | cons e es ih =>
      unfold lookup
      split
      · exact ⟨e.2, rfl⟩
      · rename_i hk
        exact ih ((List.mem_cons.1 h).resolve_left (Ne.symm hk))

/-- A write moves no key. -/
theorem keys_prefix_insert (t : Table κ α) (k : κ) (v : α) : t.keys <+: (t.insert k v).keys := by
  unfold keys insert
  generalize t.entries = entries
  induction entries with
  | nil => exact List.nil_prefix
  | cons e es ih =>
      unfold put
      split
      · rename_i hk
        rw [← hk]
        exact List.prefix_refl _
      · exact List.cons_prefix_cons.2 ⟨rfl, ih⟩

end Table

end ObjectInference
