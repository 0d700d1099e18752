import Mathlib.Data.List.Nodup
import TurnCodec.Proofs.Outcome
import TurnCodec.Registry
/-! Registries as calls of `register` leave them. No call, whatever it answers, binds
an id or a type twice, so the two look-ups undo each other. -/

namespace TurnCodec

namespace Registry

variable {F : TypeFamily}

/-- The registry after a call, whatever the call answers. -/
def after (R : Registry F) {k : F.Key} (b : Binding F k) : Registry F :=
  match (R.register b).value with
  | .ok R' => R'
  | .error _ => R

/-- The registry after calls in order. -/
def run (R : Registry F) (calls : List ((k : F.Key) × Binding F k)) : Registry F :=
  calls.foldl (fun R c => R.after c.2) R

/-- What calls make of the empty registry. -/
def Reachable (R : Registry F) : Prop := ∃ calls, run ∅ calls = R

/-- No id is empty or reserved, and none is bound twice; no type is bound twice. -/
structure Sound (R : Registry F) : Prop where
  nonempty : ∀ c ∈ R.bindings, c.2.id ≠ ""
  unreserved : ∀ c ∈ R.bindings, c.2.id ≠ Extension.plainId
  ids : (R.bindings.map fun c => c.2.id).Nodup
  types : (R.bindings.map fun c => c.1).Nodup

theorem byId?_eq_none {R : Registry F} {id : String} :
    R.byId? id = none ↔ id ∉ R.bindings.map fun c => c.2.id := by
  rw [byId?, List.find?_eq_none, List.mem_map]
  constructor
  · rintro h ⟨c, hc, rfl⟩
    simpa using h c hc
  · intro h c hc hid
    exact h ⟨c, hc, by simpa using hid⟩

theorem byType?_eq_none {R : Registry F} {k : F.Key} : R.byType? k = none ↔ k ∉ R.bindings.map fun c => c.1 := by
  rw [byType?, List.findSome?_eq_none_iff, List.mem_map]
  constructor
  · rintro h ⟨c, hc, rfl⟩
    simpa using h c hc
  · intro h c hc
    exact dif_neg fun hk => h ⟨c, hc, hk⟩

theorem byId?_append (R : Registry F) (c : (k : F.Key) × Binding F k) (id : String) :
    (⟨R.bindings ++ [c]⟩ : Registry F).byId? id = (R.byId? id).or (if c.2.id = id then some c else none) := by
  rw [byId?, byId?, List.find?_append, List.find?_singleton]
  simp only [beq_iff_eq]

theorem byType?_append (R : Registry F) {k : F.Key} (b : Binding F k) (j : F.Key) :
    (⟨R.bindings ++ [⟨k, b⟩]⟩ : Registry F).byType? j = (R.byType? j).or (if h : k = j then some (h ▸ b) else none) := by
  rw [byType?, byType?, List.findSome?_append, List.findSome?_singleton]

/-- What a call can come to, with the reason for it. -/
inductive Outcome (R : Registry F) {k : F.Key} (b : Binding F k) : Logged (Except Conflict (Registry F)) → Prop
  | empty (h : b.id = "") : Outcome R b (pure (.error .emptyId))
  | reserved (h : b.id = Extension.plainId) : Outcome R b (pure (.error .reservedId))
  | idTaken {held : (j : F.Key) × Binding F j} (hid : R.byId? b.id = some held) (hk : held.1 ≠ k) :
      Outcome R b (pure (.error (.idTaken b.id)))
  | typeTaken {held : Binding F k} (hid : R.byId? b.id = none) (htype : R.byType? k = some held) :
      Outcome R b (pure (.error (.typeTaken held.id b.id)))
  | repeated {held : (j : F.Key) × Binding F j} (hne : b.id ≠ "") (hres : b.id ≠ Extension.plainId)
      (hid : R.byId? b.id = some held) (hk : held.1 = k) : Outcome R b (pure (.ok R))
  | added (hne : b.id ≠ "") (hres : b.id ≠ Extension.plainId) (hid : R.byId? b.id = none) (htype : R.byType? k = none) :
      Outcome R b ⟨[⟨.info, "Registered extension type: " ++ b.id⟩], .ok ⟨R.bindings ++ [⟨k, b⟩]⟩⟩

theorem register_outcome (R : Registry F) {k : F.Key} (b : Binding F k) : R.Outcome b (R.register b) := by
  unfold register
  by_cases hempty : b.id.isEmpty
  · rw [if_pos hempty]
    exact .empty (by simpa using hempty)
  by_cases hplain : b.id = Extension.plainId
  · rw [if_neg hempty, if_pos hplain]
    exact .reserved hplain
  have hne : b.id ≠ "" := by simpa using hempty
  rw [if_neg hempty, if_neg hplain]
  rcases hid : R.byId? b.id with _ | held
  · rcases htype : R.byType? k with _ | held
    · exact .added hne hplain hid htype
    · exact .typeTaken hid htype
  · by_cases hk : held.1 = k
    · simp only [if_pos hk]
      exact .repeated hne hplain hid hk
    · simp only [if_neg hk]
      exact .idTaken hid hk

/-- A call changes nothing, or it adds a binding whose id and type are new. -/
theorem after_cases (R : Registry F) {k : F.Key} (b : Binding F k) :
    R.after b = R ∨ (b.id ≠ "" ∧ b.id ≠ Extension.plainId ∧ R.byId? b.id = none ∧ R.byType? k = none ∧
      R.after b = ⟨R.bindings ++ [⟨k, b⟩]⟩) := by
  have h := R.register_outcome b
  unfold after
  generalize R.register b = m at h ⊢
  cases h with
  | added hne hres hid htype => exact .inr ⟨hne, hres, hid, htype, rfl⟩
  | _ => exact .inl rfl

theorem Sound.empty : Sound (∅ : Registry F) where
  nonempty := by simp [EmptyCollection.emptyCollection, Registry.empty]
  unreserved := by simp [EmptyCollection.emptyCollection, Registry.empty]
  ids := List.nodup_nil
  types := List.nodup_nil

theorem Sound.after {R : Registry F} (h : Sound R) {k : F.Key} (b : Binding F k) : Sound (R.after b) := by
  rcases after_cases R b with hsame | ⟨hne, hres, hid, htype, hnew⟩
  · rwa [hsame]
  · rw [byId?_eq_none] at hid
    rw [byType?_eq_none] at htype
    rw [hnew]
    refine ⟨?_, ?_, ?_, ?_⟩
    · simpa [or_imp, forall_and, hne] using h.nonempty
    · simpa [or_imp, forall_and, hres] using h.unreserved
    · rw [List.map_append]
      exact List.nodup_append'.2 ⟨h.ids, List.nodup_singleton _, by simpa using hid⟩
    · rw [List.map_append]
      exact List.nodup_append'.2 ⟨h.types, List.nodup_singleton _, by simpa using htype⟩

theorem Sound.run {R : Registry F} (h : Sound R) (calls : List ((k : F.Key) × Binding F k)) : Sound (R.run calls) := by
  induction calls generalizing R with
  | nil => exact h
  | cons c calls ih => exact ih (h.after c.2)

theorem Reachable.sound {R : Registry F} (h : Reachable R) : Sound R := by
  obtain ⟨calls, rfl⟩ := h
  exact Sound.empty.run calls

theorem Sound.byId?_eq_some {R : Registry F} (h : Sound R) {id : String} {c : (k : F.Key) × Binding F k} :
    R.byId? id = some c ↔ c ∈ R.bindings ∧ c.2.id = id := by
  constructor
  · intro hc
    exact ⟨List.mem_of_find?_eq_some hc, by simpa using List.find?_some hc⟩
  · rintro ⟨hc, rfl⟩
    cases hd : R.byId? c.2.id with
    | none => exact absurd (List.mem_map_of_mem hc) (byId?_eq_none.1 hd)
    | some d =>
      have hdc : d.2.id = c.2.id := by simpa using List.find?_some hd
      rw [List.inj_on_of_nodup_map h.ids (List.mem_of_find?_eq_some hd) hc hdc]

theorem mem_of_byType? {R : Registry F} {k : F.Key} {b : Binding F k} (h : R.byType? k = some b) : ⟨k, b⟩ ∈ R.bindings := by
  obtain ⟨⟨j, a⟩, hc, hcb⟩ := List.exists_of_findSome?_eq_some h
  split at hcb
  · rename_i hj
    subst hj
    rwa [← Option.some.inj hcb]
  · cases hcb

theorem Sound.byType?_eq_some {R : Registry F} (h : Sound R) {k : F.Key} {b : Binding F k} :
    R.byType? k = some b ↔ ⟨k, b⟩ ∈ R.bindings := by
  refine ⟨mem_of_byType?, fun hb => ?_⟩
  cases hd : R.byType? k with
  | none => exact absurd (List.mem_map_of_mem hb) (byType?_eq_none.1 hd)
  | some d =>
    have hsame := List.inj_on_of_nodup_map h.types (mem_of_byType? hd) hb rfl
    cases hsame
    rfl

/-- The id that a type is bound to leads back to the type and its binding. -/
theorem Sound.byId?_of_byType? {R : Registry F} (h : Sound R) {k : F.Key} {b : Binding F k}
    (hb : R.byType? k = some b) : R.byId? b.id = some ⟨k, b⟩ :=
  h.byId?_eq_some.2 ⟨h.byType?_eq_some.1 hb, rfl⟩

theorem Sound.byType?_of_byId? {R : Registry F} (h : Sound R) {id : String} {k : F.Key} {b : Binding F k}
    (hb : R.byId? id = some ⟨k, b⟩) : R.byType? k = some b ∧ b.id = id := by
  obtain ⟨hmem, hid⟩ := h.byId?_eq_some.1 hb
  exact ⟨h.byType?_eq_some.2 hmem, hid⟩

/-- What one registry binds, another binds to the same. -/
structure Within (R R' : Registry F) : Prop where
  byId : ∀ id c, R.byId? id = some c → R'.byId? id = some c
  byType : ∀ k b, R.byType? k = some b → R'.byType? k = some b

theorem Within.refl (R : Registry F) : Within R R := ⟨fun _ _ h => h, fun _ _ h => h⟩

theorem Within.trans {R R' R'' : Registry F} (h : Within R R') (h' : Within R' R'') : Within R R'' :=
  ⟨fun id c hc => h'.byId id c (h.byId id c hc), fun k b hb => h'.byType k b (h.byType k b hb)⟩

/-- No call changes or removes a binding. -/
theorem within_after (R : Registry F) {k : F.Key} (b : Binding F k) : Within R (R.after b) := by
  rcases after_cases R b with hsame | ⟨-, -, -, -, hnew⟩
  · rw [hsame]
    exact .refl R
  · rw [hnew]
    refine ⟨fun id c hc => ?_, fun j a ha => ?_⟩
    · rw [byId?_append, hc, Option.some_or]
    · rw [byType?_append, ha, Option.some_or]

theorem within_run (R : Registry F) (calls : List ((k : F.Key) × Binding F k)) : Within R (R.run calls) := by
  induction calls generalizing R with
  | nil => exact .refl R
  | cons c calls ih => exact (within_after R c.2).trans (ih _)

theorem mem_ids {R : Registry F} {id : String} : id ∈ R.ids ↔ R.contains id = true := by
  rw [ids, List.mem_mergeSort, contains, Option.isSome_iff_ne_none, Ne, byId?_eq_none, not_not]

theorem sorted_mergeSort (ids : List String) : ids.mergeSort.Pairwise (· ≤ ·) := by
  have h : ids.mergeSort.Pairwise fun a b => decide (a ≤ b) = true :=
    List.pairwise_mergeSort (by simpa using fun a b c => String.le_trans) (by simpa using String.le_total) _
  simpa using h

/-- Sorting forgets an order. -/
theorem mergeSort_congr {ids ids' : List String} (h : ids.Perm ids') : ids.mergeSort = ids'.mergeSort :=
  ((List.mergeSort_perm _ _).trans (h.trans (List.mergeSort_perm _ _).symm)).eq_of_pairwise
    (fun _ _ _ _ => String.le_antisymm) (sorted_mergeSort _) (sorted_mergeSort _)

theorem Sound.nodup_ids {R : Registry F} (h : Sound R) : R.ids.Nodup :=
  (List.mergeSort_perm _ _).nodup_iff.2 h.ids

theorem Sound.ids_ascending {R : Registry F} (h : Sound R) : R.ids.Pairwise (· < ·) := by
  refine ((sorted_mergeSort _).and h.nodup_ids).imp fun ⟨hle, hne⟩ => Std.lt_of_le_of_ne hle hne

/-- What encoders give, their decoders take back to the value. -/
def Faithful (R : Registry F) : Prop :=
  ∀ c ∈ R.bindings, ∀ v p, c.2.encode v = .ok p → c.2.decode p = .ok v

/-- What encoders give, their decoders take back to an equal value, by the equality of the type. -/
def Restoring (R : Registry F) : Prop :=
  ∀ c ∈ R.bindings, ∀ v p, c.2.encode v = .ok p → ∃ u, c.2.decode p = .ok u ∧ F.same c.1 u v = true

end Registry

/-- The family of a caller with one type, truth values. -/
def TypeFamily.truth : TypeFamily where
  Key := Unit
  Value _ := Bool
  same _ a b := a == b
  name _ := "Truth"

def Binding.truth : Binding .truth () where
  id := "vendor.Truth"
  encode b := .ok (.bool b)
  decode
    | .bool b => .ok b
    | _ => .error (.because "not a truth value")

namespace Registry

def truth : Registry .truth := ⟨[⟨(), .truth⟩]⟩

/-- A binding that is made, made again with another codec, and refused under another id. -/
def insistent : List ((k : TypeFamily.truth.Key) × Binding .truth k) :=
  [⟨(), .truth⟩, ⟨(), { Binding.truth with decode := fun _ => .ok false }⟩,
    ⟨(), { Binding.truth with id := "vendor.Bool" }⟩]

theorem truth_reachable : truth.Reachable := ⟨[⟨(), .truth⟩], rfl⟩

theorem truth_restoring : truth.Restoring := by
  intro c hc v p h
  obtain rfl := List.mem_singleton.1 hc
  cases h
  exact ⟨v, rfl, beq_self_eq_true (show Bool from v)⟩

theorem truth_faithful : truth.Faithful := by
  intro c hc v p h
  obtain rfl := List.mem_singleton.1 hc
  cases h
  rfl

end Registry

end TurnCodec
