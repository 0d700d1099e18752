import Mathlib.Data.Set.Card
import TurnCodec.Proofs.Wire.RoundTrip
import TurnCodec.Registry.Tables
/-! A registry as two tables. A call finds both tables to hold the same descriptors and leaves
them so, and they answer as the registry does. An encoder is therefore found under the type of
the value that it is given, and the id that it writes leads back to its own descriptor. -/

namespace TurnCodec

open Bearing

theorem ncard_bound {α β : Type} [DecidableEq α] [Hashable α] (m : Std.HashMap α β) :
    {a : α | m[a]?.isSome = true}.ncard = m.size := by
  have keys : {a : α | m[a]?.isSome = true} = m.keys.toFinset := by
    ext a
    rw [List.coe_toFinset, Set.mem_ofPred_eq, Set.mem_ofPred_eq, Std.HashMap.mem_keys,
      Std.HashMap.mem_iff_isSome_getElem?]
  rw [keys, Set.ncard_coe_finset, List.toFinset_card_of_nodup Std.HashMap.nodup_keys, Std.HashMap.length_keys]

namespace Tables

variable {F : TypeFamily} [Hashable F.Key] {T : Tables F} {R : Registry F}

/-- The tables answer every look-up as the registry does, and each has as many entries as the
registry has bindings. -/
structure Shows (T : Tables F) (R : Registry F) : Prop where
  ofId : ∀ id, T.ofId? id = R.byId? id
  ofType : ∀ k, T.ofType? k = (R.byType? k).map (⟨k, ·⟩)
  sizeById : T.byId.size = R.size
  sizeByType : T.byType.size = R.size

theorem shows_empty : Shows (∅ : Tables F) ∅ :=
  ⟨fun _ => Std.HashMap.getElem?_empty, fun _ => Std.HashMap.getElem?_empty, Std.HashMap.size_empty,
    Std.HashMap.size_empty⟩

theorem Shows.fill (h : T.Shows R) {d : Descriptor F} (hid : R.byId? d.2.id = none) (htype : R.byType? d.1 = none) :
    Shows ⟨T.byId.insertIfNew d.2.id d, T.byType.insertIfNew d.1 d⟩ ⟨R.bindings ++ [d]⟩ := by
  have newId : d.2.id ∉ T.byId := by
    have := h.ofId d.2.id
    rw [hid] at this
    exact (getElem?_eq_none_iff _ _).1 this
  have newType : d.1 ∉ T.byType := by
    have := h.ofType d.1
    rw [htype] at this
    exact (getElem?_eq_none_iff _ _).1 this
  refine ⟨fun id => ?_, fun k => ?_, ?_, ?_⟩
  · rw [Registry.byId?_append, ← h.ofId, ofId?, ofId?, Std.HashMap.getElem?_insertIfNew]
    by_cases hd : d.2.id = id
    · subst hd
      simp [newId]
    · simp [hd]
  · obtain ⟨j, b⟩ := d
    rw [Registry.byType?_append, Option.map_or, ← h.ofType, ofType?, ofType?, Std.HashMap.getElem?_insertIfNew]
    by_cases hk : j = k
    · subst hk
      simp [newType]
    · simp [hk]
  · rw [Std.HashMap.size_insertIfNew, if_neg newId, h.sizeById]
    simp [Registry.size]
  · rw [Std.HashMap.size_insertIfNew, if_neg newType, h.sizeByType]
    simp [Registry.size]

/-- One call answers and logs the same, and shows the same registry afterwards. -/
theorem Shows.insert (h : T.Shows R) (d : Descriptor F) :
    (T.insert d).value.1 = (fun _ => ()) <$> (R.register d.2).value ∧ (T.insert d).entries = (R.register d.2).entries ∧
      (T.insert d).value.2.Shows (R.after d.2) := by
  unfold Tables.insert Registry.after Registry.register
  by_cases hempty : d.2.id.isEmpty
  · simp only [if_pos hempty]
    exact ⟨rfl, rfl, h⟩
  by_cases hplain : d.2.id = Extension.plainId
  · simp only [if_neg hempty, if_pos hplain]
    exact ⟨rfl, rfl, h⟩
  have hid : T.byId[d.2.id]? = R.byId? d.2.id := h.ofId d.2.id
  have htype : T.byType[d.1]? = (R.byType? d.1).map (⟨d.1, ·⟩) := h.ofType d.1
  simp only [if_neg hempty, if_neg hplain, hid, htype]
  rcases hheld : R.byId? d.2.id with _ | held
  · rcases hother : R.byType? d.1 with _ | held
    · exact ⟨rfl, rfl, h.fill hheld hother⟩
    · exact ⟨rfl, rfl, h⟩
  · by_cases hsame : held.1 = d.1
    · simp only [if_pos hsame]
      exact ⟨rfl, rfl, h⟩
    · simp only [if_neg hsame]
      exact ⟨rfl, rfl, h⟩

theorem Shows.run (h : T.Shows R) (calls : List (Descriptor F)) : (T.run calls).Shows (R.run calls) := by
  induction calls generalizing T R with
  | nil => exact h
  | cons d calls ih => exact ih (h.insert d).2.2

theorem Shows.contains (h : T.Shows R) (id : String) : T.contains id = R.contains id := by
  rw [Tables.contains, Std.HashMap.contains_eq_isSome_getElem?, Registry.contains, ← h.ofId]
  rfl

theorem mem_ids {id : String} : id ∈ T.ids ↔ T.contains id = true := by
  rw [ids, List.mem_mergeSort, Std.HashMap.mem_keys, contains, Std.HashMap.contains_iff_mem]

theorem Shows.ids (h : T.Shows R) (hR : R.Sound) : T.ids = R.ids := by
  refine Registry.mergeSort_congr ((List.perm_ext_iff_of_nodup Std.HashMap.nodup_keys hR.ids).2 fun id => ?_)
  have same : id ∈ T.ids ↔ id ∈ R.ids := by rw [mem_ids, Registry.mem_ids, h.contains]
  rwa [Tables.ids, Registry.ids, List.mem_mergeSort, List.mem_mergeSort] at same

theorem Shows.write (h : T.Shows R) (key : String) (x : Extension F) :
    T.write key x = (x.toWire R key).mapError .unwritable := by
  rcases x with t | ⟨k, v⟩
  · cases t <;> rfl
  · rw [Tables.write, Extension.toWire, h.ofType]
    rcases R.byType? k with _ | b
    · rfl
    -- The table has found the descriptor of the type of `v`, so the wrapper opens.
    have hself : Descriptor.encode? ⟨k, b⟩ (.typed k v) = some (b.encode v) := by
      simp [Descriptor.encode?, Extension.get?]
    simp only [Option.map_some, hself]
    cases b.encode v <;> rfl

theorem Shows.read (h : T.Shows R) (key : String) (w : Tree) : T.read key w = Extension.ofWire R key w := by
  unfold Tables.read Extension.ofWire Extension.resolve
  simp only [h.ofId]
  rcases w.fieldsOf ("extra." ++ key) with m | fs
  · rfl
  simp only [ok_bind]
  rcases fs.text "t" with m | id
  · rfl
  simp only [ok_bind]
  rcases fs.required "p" with m | p
  · rfl
  simp only [ok_bind]
  split_ifs with hplain
  · rfl
  rcases R.byId? id with _ | d
  · rfl
  simp only [Descriptor.decode]
  cases d.2.decode p <;> rfl

theorem Shows.toWire (h : T.Shows R) (r : Response (Extension F)) : T.toWire r = (r.toWire R).mapError .unwritable := by
  have hwrite : T.write = fun key x => (x.toWire R key).mapError .unwritable := funext fun key => funext (h.write key)
  have hvisit : r.traverse T.write = (r.traverse (Extension.toWire R)).mapError .unwritable := by
    rw [hwrite]
    exact visit_mapError (X := Response) _ r
  rw [Tables.toWire, Response.toWire, hvisit]
  cases r.traverse (Extension.toWire R) <;> rfl

theorem Shows.ofWire (h : T.Shows R) (w : Tree) : T.ofWire w = Response.ofWire R w := by
  have hread : T.read = Extension.ofWire R := funext fun key => funext (h.read key)
  rw [Tables.ofWire, hread, Response.ofWire]

/-- The tables are inverse to each other, bind no id that may not be bound, and list what they bind. -/
structure Consistent (T : Tables F) : Prop where
  ofId : ∀ id d, T.ofId? id = some d → d.2.id = id ∧ T.ofType? d.1 = some d
  ofType : ∀ k d, T.ofType? k = some d → d.1 = k ∧ T.ofId? d.2.id = some d
  nonempty : T.ofId? "" = none
  unreserved : T.ofId? "json" = none
  boundIds : T.size = {id | (T.ofId? id).isSome = true}.ncard
  boundTypes : T.size = {k | (T.ofType? k).isSome = true}.ncard
  ascending : T.ids.Pairwise (· < ·)
  listed : ∀ id, id ∈ T.ids ↔ T.contains id = true
  contained : ∀ id, T.contains id = true ↔ ∃ d, T.ofId? id = some d

theorem Shows.consistent (h : T.Shows R) (hR : R.Sound) : T.Consistent where
  ofId id d hd := by
    rw [h.ofId] at hd
    obtain ⟨hk, hid⟩ := hR.byType?_of_byId? hd
    exact ⟨hid, by rw [h.ofType, hk, Option.map_some]⟩
  ofType k d hd := by
    rw [h.ofType] at hd
    obtain ⟨b, hb, rfl⟩ := Option.map_eq_some_iff.1 hd
    exact ⟨rfl, by rw [h.ofId, hR.byId?_of_byType? hb]⟩
  nonempty := by
    rw [h.ofId, Registry.byId?_eq_none, List.mem_map]
    exact fun ⟨c, hc, hid⟩ => hR.nonempty c hc hid
  unreserved := by
    rw [h.ofId, Registry.byId?_eq_none, List.mem_map]
    exact fun ⟨c, hc, hid⟩ => hR.unreserved c hc hid
  boundIds := (ncard_bound T.byId).symm
  boundTypes := by
    rw [Tables.size, h.sizeById, ← h.sizeByType]
    exact (ncard_bound T.byType).symm
  ascending := by
    rw [h.ids hR]
    exact hR.ids_ascending
  listed _ := mem_ids
  contained id := by
    rw [Tables.contains, Std.HashMap.contains_eq_isSome_getElem?, Option.isSome_iff_exists]
    rfl

/-- A descriptor makes a record of a value of its type, and the id in the record leads a reader
back to that descriptor. -/
structure Recorded (T : Tables F) (key : String) {k : F.Key} (v : F.Value k) (d : Descriptor F) (p w : Tree) :
    Prop where
  found : T.ofType? k = some d
  encoded : d.encode? (.typed k v) = some (.ok p)
  record : w = Extension.record d.2.id p
  back : T.ofId? d.2.id = some d
  read : T.read key w = (d.decode p).mapError (.refused key d.2.id)

theorem write_typed {key : String} {k : F.Key} {v : F.Value k} {w : Tree} : T.write key (.typed k v) = .ok w ↔
    ∃ d p, T.ofType? k = some d ∧ d.encode? (.typed k v) = some (.ok p) ∧ w = Extension.record d.2.id p := by
  rw [write]
  rcases T.ofType? k with _ | d
  · simp
  · rcases hp : d.encode? (.typed k v) with _ | _ | p <;> simp [hp, eq_comm]

theorem read_record {key id : String} {d : Descriptor F} (hid : id ≠ Extension.plainId) (hd : T.ofId? id = some d)
    (p : Tree) : T.read key (Extension.record id p) = (d.decode p).mapError (.refused key id) := by
  change (if id = Extension.plainId then _ else _) = _
  rw [if_neg hid, hd]

theorem Consistent.recorded (hT : T.Consistent) {key : String} {k : F.Key} {v : F.Value k} {w : Tree}
    (h : T.write key (.typed k v) = .ok w) : ∃ d p, T.Recorded key v d p w := by
  obtain ⟨d, p, hd, hp, rfl⟩ := write_typed.1 h
  have hback := (hT.ofType k d hd).2
  have hid : d.2.id ≠ Extension.plainId := by
    intro hplain
    rw [hplain] at hback
    cases hT.unreserved.symm.trans hback
  exact ⟨d, p, hd, hp, rfl, hback, read_record hid hback p⟩

/-- The tables answer every question as the registry does. Writing over them ends at a value
that has no wire form, or not at all. -/
structure Agrees (T : Tables F) (R : Registry F) : Prop where
  insert : ∀ d, (T.insert d).value.1 = (fun _ => ()) <$> (R.register d.2).value ∧
    (T.insert d).entries = (R.register d.2).entries
  ofId : ∀ id, T.ofId? id = R.byId? id
  ofType : ∀ k, T.ofType? k = (R.byType? k).map (⟨k, ·⟩)
  contains : ∀ id, T.contains id = R.contains id
  size : T.size = R.size
  ids : T.ids = R.ids
  toWire : ∀ r : Response (Extension F), T.toWire r = (r.toWire R).mapError .unwritable
  ofWire : ∀ w, T.ofWire w = Response.ofWire R w

theorem Shows.agrees (h : T.Shows R) (hR : R.Sound) : T.Agrees R where
  insert d := ⟨(h.insert d).1, (h.insert d).2.1⟩
  ofId := h.ofId
  ofType := h.ofType
  contains := h.contains
  size := h.sizeById
  ids := h.ids hR
  toWire := h.toWire
  ofWire := h.ofWire

/-- Whatever was called, the two tables are inverse to each other and show the registry. Later
calls keep what is bound. No encoder is ever given a value of another type, and what is written
of a typed value is read by the descriptor that wrote it. -/
theorem run_consistent (calls : List (Descriptor F)) :
    let T : Tables F := run ∅ calls
    let R : Registry F := Registry.run ∅ calls
    T.Agrees R ∧ T.Consistent ∧
      (∀ more id d, T.ofId? id = some d → (T.run more).ofId? id = some d) ∧
      (∀ more k d, T.ofType? k = some d → (T.run more).ofType? k = some d) ∧
      ∀ (r : Response (Extension F)) (w : Tree), T.toWire r = .ok w →
        ∃ records : String → Extension F → Tree, w = (map records r).layout ∧
          ∀ e ∈ extras r, ∀ k v, e.2 = .typed k v → ∃ d p, T.Recorded e.1 v d p (records e.1 e.2) := by
  intro T R
  have hshows : T.Shows R := shows_empty.run calls
  have hsound : R.Sound := Registry.Sound.empty.run calls
  have hT : T.Consistent := hshows.consistent hsound
  refine ⟨hshows.agrees hsound, hT, fun more id d hd => ?_, fun more k d hd => ?_, fun r w hw => ?_⟩
  · rw [hshows.ofId] at hd
    rw [(hshows.run more).ofId]
    exact (R.within_run more).byId id d hd
  · rw [hshows.ofType] at hd
    obtain ⟨b, hb, rfl⟩ := Option.map_eq_some_iff.1 hd
    rw [(hshows.run more).ofType, (R.within_run more).byType k b hb, Option.map_some]
  · obtain ⟨s, hs, rfl⟩ := map_eq_ok.1 hw
    obtain ⟨hok, rfl⟩ := (visit_eq_ok (X := Response)).1 hs
    refine ⟨valueOf T.write, rfl, fun e he k v hv => hT.recorded ?_⟩
    obtain ⟨w, hw⟩ := hok e he
    rw [← hv, valueOf_eq hw, hw]

end Tables

instance : Hashable TypeFamily.truth.Key := inferInstanceAs (Hashable Unit)

theorem Tables.run_consistent_insistent : (run ∅ Registry.insistent).ids = ["vendor.Truth"] ∧
    (∃ w, (run ∅ Registry.insistent).toWire Response.sample = .ok w) ∧
    ∃ d p w, (run ∅ Registry.insistent).Recorded "seen" (k := ()) true d p w := by
  obtain ⟨hagrees, -, -, -, hrecorded⟩ := run_consistent Registry.insistent
  have hwritten : (run ∅ Registry.insistent).toWire Response.sample = .ok _ :=
    (hagrees.toWire Response.sample).trans rfl
  obtain ⟨records, -, hrecords⟩ := hrecorded _ _ hwritten
  obtain ⟨d, p, hd⟩ := hrecords ("seen", .typed () true) List.mem_cons_self () true rfl
  refine ⟨hagrees.ids.trans ?_, ⟨_, hwritten⟩, d, p, _, hd⟩
  exact List.mergeSort_singleton _

end TurnCodec
