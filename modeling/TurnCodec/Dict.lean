/-! Dictionaries with text keys, as entries in strictly ascending key order.
`put` replaces the value of a key that is present; `add` leaves it alone. -/

namespace TurnCodec

/-- Keys in strictly ascending order, hence each at most once. -/
def Ascending {α : Type} (es : List (String × α)) : Prop :=
  es.Pairwise (fun a b => a.1 < b.1)

/-- Binds `k` to `v`, in place of what it was bound to. -/
def putEntry {α : Type} (k : String) (v : α) : List (String × α) → List (String × α)
  | [] => [(k, v)]
  | (j, u) :: es =>
    if k < j then (k, v) :: (j, u) :: es
    else if k = j then (k, v) :: es
    else (j, u) :: putEntry k v es

structure Dict (α : Type) where
  entries : List (String × α)
  ascending : Ascending entries

section
variable {α : Type}

theorem mem_putEntry {k : String} {v : α} {e : String × α} {es : List (String × α)}
    (h : e ∈ putEntry k v es) : e = (k, v) ∨ e ∈ es := by
  induction es with
  | nil => simpa [putEntry] using h
  | cons d es ih =>
    obtain ⟨j, u⟩ := d
    unfold putEntry at h
    split at h
    · simpa using h
    · split at h
      · simp only [List.mem_cons] at h ⊢
        exact h.imp_right Or.inr
      · simp only [List.mem_cons] at h ⊢
        rcases h with h | h
        · exact Or.inr (Or.inl h)
        · exact (ih h).imp_right Or.inr

theorem ascending_putEntry (k : String) (v : α) {es : List (String × α)} (h : Ascending es) :
    Ascending (putEntry k v es) := by
  induction es with
  | nil => exact List.pairwise_singleton _ _
  | cons d es ih =>
    obtain ⟨j, u⟩ := d
    obtain ⟨hj, hes⟩ := List.pairwise_cons.1 h
    unfold putEntry
    split
    · rename_i hk
      refine List.pairwise_cons.2 ⟨fun e he => ?_, h⟩
      rcases List.mem_cons.1 he with rfl | he
      · exact hk
      · exact String.lt_trans hk (hj e he)
    · split
      · rename_i hk
        subst hk
        exact List.pairwise_cons.2 ⟨hj, hes⟩
      · rename_i hlt hne
        refine List.pairwise_cons.2 ⟨fun e he => ?_, ih hes⟩
        rcases mem_putEntry he with rfl | he
        · exact Std.lt_of_le_of_ne (Std.not_lt.1 hlt) (Ne.symm hne)
        · exact hj e he

theorem lookup_entry (j i : String) (u : α) (es : List (String × α)) :
    List.lookup j ((i, u) :: es) = if j = i then some u else es.lookup j := by
  rw [List.lookup_cons]
  by_cases h : j = i
  · simp [h]
  · rw [if_neg h, beq_false_of_ne h]

theorem lookup_putEntry (k j : String) (v : α) (es : List (String × α)) :
    (putEntry k v es).lookup j = if j = k then some v else es.lookup j := by
  induction es with
  | nil => simp [putEntry, lookup_entry]
  | cons d es ih =>
    obtain ⟨i, u⟩ := d
    unfold putEntry
    split
    · simp only [lookup_entry]
    · split
      · rename_i hk
        subst hk
        simp only [lookup_entry]
        split <;> rfl
      · rename_i hne
        simp only [lookup_entry, ih]
        by_cases hj : j = i
        · subst hj; simp [Ne.symm hne]
        · simp [hj]

end

namespace Dict

variable {α : Type}

def empty : Dict α := ⟨[], List.Pairwise.nil⟩

instance : EmptyCollection (Dict α) := ⟨empty⟩
instance : Inhabited (Dict α) := ⟨empty⟩
instance [BEq α] : BEq (Dict α) := ⟨fun a b => a.entries == b.entries⟩

@[ext]
theorem ext {a b : Dict α} (h : a.entries = b.entries) : a = b := by
  cases a; cases b; cases h; rfl

def isEmpty (d : Dict α) : Bool := d.entries.isEmpty

def get? (d : Dict α) (k : String) : Option α := d.entries.lookup k

def put (d : Dict α) (k : String) (v : α) : Dict α :=
  ⟨putEntry k v d.entries, ascending_putEntry k v d.ascending⟩

/-- Binds `k` unless it is bound. -/
def add (d : Dict α) (k : String) (v : α) : Dict α :=
  if (d.get? k).isSome then d else d.put k v

/-- Of two entries with one key the first is kept. -/
def ofList (es : List (String × α)) : Dict α :=
  es.foldl (fun d e => d.add e.1 e.2) ∅

/-- Runs `f` on every entry in key order and collects the values. -/
def traverse {ε β : Type} (f : String → α → Except ε β) (d : Dict α) : Except ε (Dict β) := do
  let es ← d.entries.mapM fun (k, v) => return (k, ← f k v)
  return ofList es

theorem get?_put (d : Dict α) (k j : String) (v : α) :
    (d.put k v).get? j = if j = k then some v else d.get? j :=
  lookup_putEntry k j v d.entries

end Dict

end TurnCodec
